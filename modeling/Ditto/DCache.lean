-- The data sizes of the generator. They come from a table of simulated
-- caches, and the analyzer clamps them to its two bounds. The position of a
-- size in the result is the slot of its blocks, and the service gives slot
-- `i` the size `64 << i`.
import Ditto.Lib.Rounding
import Ditto.Lib.SortedDict
import Ditto.Service

open ditto.assembly_generator (Generator Submission BlockDraws AsmBlock generate_asm_block)
open ditto.service (cache_init_size)

namespace ditto.dcache_analyzer

/-! ## The table -/

def CACHELINE_SIZE : ℕ := 64

/-- The loop that lists the swept sizes. -/
def cache_sizes_loop : ℕ → ℕ → List ℕ
  | 0, _ => []
  | fuel + 1, size =>
    if size ≤ 256 * (1 <<< 20) then size :: cache_sizes_loop fuel (size * 2) else []

def CACHE_SIZES : List ℕ := cache_sizes_loop 64 64

/-- What one simulated cache counts. -/
structure Counts where
  refs : ℤ
  rd_refs : ℤ
  wr_refs : ℤ
  misses : ℤ
  rd_misses : ℤ
  wr_misses : ℤ
deriving DecidableEq

/-- The counts of each cache, by its size and its associativity. -/
abbrev Table := PyDict (ℕ × ℕ) Counts

/-! ## The analyzer -/

/-- The quotient of two numbers, which is an error for a zero. -/
def div (a b : ℚ) : Except PyError ℚ := if b = 0 then .error .zeroDivisionError else .ok (a / b)

/-- The model of `int(np.mean(l))`. -/
def int_mean (l : List ℤ) : Except PyError ℤ :=
  if l = [] then .error .valueError else .ok (truncate (l.sum / l.length))

/-- The attributes of the analyzer. It has an associativity, so only the size of a key counts. -/
structure DCacheAnalyzer where
  exclude : Bool
  min_size : ℕ
  max_size : ℕ

/-- The accesses that hit in each size but in none before it. The accesses behind the first
size are those that the size before it misses. -/
def later_accesses : ℤ → List (ℕ × Counts) → List (ℕ × ℤ)
  | _, [] => []
  | misses, [e] => [(e.1, misses)]
  | misses, e :: rest => (e.1, misses - e.2.misses) :: later_accesses e.2.misses rest

def access_counts : List (ℕ × Counts) → List (ℕ × ℤ)
  | [] => []
  | e :: rest => (e.1, e.2.refs - e.2.misses) :: later_accesses e.2.misses rest

def calculate_dcache_stats (dcache_stats : PyDict ℕ Counts) : Except PyError (PyDict ℕ ℚ) := do
  let access_stats := access_counts dcache_stats.sortKeys.entries
  let s := (access_stats.map fun e => max 0 e.2).sum
  (PyDict.ofList access_stats).mapM fun _ (v : ℤ) => return max 0 (← div v s)

/-- The counts of a cache, without those of the skeleton. -/
def less (app skeleton value skeleton_value : Counts) : Counts where
  refs := app.refs - skeleton.refs
  rd_refs := app.rd_refs - skeleton.rd_refs
  wr_refs := app.wr_refs - skeleton.wr_refs
  misses := value.misses - skeleton_value.misses
  rd_misses := value.rd_misses - skeleton_value.rd_misses
  wr_misses := value.wr_misses - skeleton_value.wr_misses

section Keys

variable {κ ι : Type} [DecidableEq κ] [DecidableEq ι]

/-- The means of the references over a table. -/
def mean_refs (data : PyDict κ Counts) : Except PyError Counts := do
  let refs ← int_mean (data.values.map Counts.refs)
  let rd_refs ← int_mean (data.values.map Counts.rd_refs)
  let wr_refs ← int_mean (data.values.map Counts.wr_refs)
  return ⟨refs, rd_refs, wr_refs, 0, 0, 0⟩

/-- The counts of a cache under what `key` keeps of its key, without those of the skeleton when it
is excluded. -/
def counts_by (key : κ → ι) (exclude : Bool) (skeleton_data : PyDict κ Counts)
    (app skeleton : Counts) (ret : PyDict ι Counts) (e : κ × Counts) :
    Except PyError (PyDict ι Counts) :=
  if exclude then
    match skeleton_data.get? e.1 with
    | none => .error .keyError
    | some value => .ok (ret.set (key e.1) (less app skeleton e.2 value))
  else
    .ok (ret.set (key e.1)
      { e.2 with refs := app.refs, rd_refs := app.rd_refs, wr_refs := app.wr_refs })

/-- The counts of all caches. -/
def table_by (key : κ → ι) (exclude : Bool) (valgrind_data skeleton_data : PyDict κ Counts) :
    Except PyError (PyDict ι Counts) := do
  let app ← mean_refs valgrind_data
  let skeleton ← mean_refs skeleton_data
  valgrind_data.entries.foldlM (counts_by key exclude skeleton_data app skeleton) .empty

end Keys

/-- With an associativity, the counts of a cache are those of its size. -/
def size_counts (exclude : Bool) (skeleton_data : Table) (app skeleton : Counts)
    (ret : PyDict ℕ Counts) (e : (ℕ × ℕ) × Counts) : Except PyError (PyDict ℕ Counts) :=
  counts_by Prod.fst exclude skeleton_data app skeleton ret e

def size_table (a : DCacheAnalyzer) (valgrind_data skeleton_data : Table) :
    Except PyError (PyDict ℕ Counts) :=
  table_by Prod.fst a.exclude valgrind_data skeleton_data

def run_analysis_from_valgrind (a : DCacheAnalyzer) (valgrind_data skeleton_data : Table) :
    Except PyError (PyDict ℕ ℚ) := do
  let ret ← size_table a valgrind_data skeleton_data
  calculate_dcache_stats ret

/-- The model of `d[k] += v` for a key that is there. -/
def add_to (d : PyDict ℕ ℚ) (k : ℕ) (v : ℚ) : PyDict ℕ ℚ := d.set k ((d.get? k).getD 0 + v)

/-- One turn of the loop that clamps the sizes. -/
def clamp (a : DCacheAnalyzer) (d : PyDict ℕ ℚ) (e : ℕ × ℚ) : PyDict ℕ ℚ :=
  if e.1 ≤ a.min_size then add_to d a.min_size e.2
  else if a.max_size ≤ e.1 then add_to d a.max_size e.2
  else d.set e.1 e.2

def run_analysis (a : DCacheAnalyzer) (valgrind_data skeleton_data : Table) :
    Except PyError (PyDict ℕ ℚ) := do
  let tmp_dcache_stats ← run_analysis_from_valgrind a valgrind_data skeleton_data
  let dcache_stats := (PyDict.empty.set a.max_size 0).set a.min_size 0
  let dcache_stats := tmp_dcache_stats.entries.foldl (clamp a) dcache_stats
  let s := dcache_stats.values.sum
  let dcache_stats ← dcache_stats.mapM fun _ v => div v s
  return dcache_stats.sortKeys

/-! ## The sizes of the result -/

@[simp] theorem later_accesses_cons_cons (misses : ℤ) (e e' : ℕ × Counts)
    (rest : List (ℕ × Counts)) :
    later_accesses misses (e :: e' :: rest) =
      (e.1, misses - e.2.misses) :: later_accesses e.2.misses (e' :: rest) := rfl

theorem map_fst_later_accesses (misses : ℤ) (l : List (ℕ × Counts)) :
    (later_accesses misses l).map Prod.fst = l.map Prod.fst := by
  induction l generalizing misses with
  | nil => rfl
  | cons e rest ih =>
    cases rest with
    | nil => rfl
    | cons e' rest =>
      rw [later_accesses_cons_cons, List.map_cons, ih]
      rfl

theorem map_fst_access_counts (l : List (ℕ × Counts)) :
    (access_counts l).map Prod.fst = l.map Prod.fst := by
  cases l with
  | nil => rfl
  | cons e rest => rw [access_counts, List.map_cons, map_fst_later_accesses, List.map_cons]

variable {stats : PyDict ℕ ℚ} {app skeleton : Counts} {skeleton_data valgrind_data : Table}

theorem mem_keys_calculate {counts : PyDict ℕ Counts}
    (h : calculate_dcache_stats counts = .ok stats) (x : ℕ) : x ∈ stats.keys ↔ x ∈ counts.keys := by
  unfold calculate_dcache_stats at h
  rw [PyDict.keys_mapM h, PyDict.mem_keys_ofList, map_fst_access_counts]
  exact counts.perm_keys_sortKeys.mem_iff

/-- Each turn of the loop over the table writes the key of its entry. -/
theorem counts_by_set {κ ι : Type} [DecidableEq κ] [DecidableEq ι] {key : κ → ι} {exclude : Bool}
    {skeleton_data : PyDict κ Counts} {app skeleton : Counts} (ret : PyDict ι Counts)
    (e : κ × Counts) (ret' : PyDict ι Counts)
    (h : counts_by key exclude skeleton_data app skeleton ret e = .ok ret') :
    ∃ counts, ret' = ret.set (key e.1) counts := by
  unfold counts_by at h
  split at h
  · split at h
    · cases h
    · cases h
      exact ⟨_, rfl⟩
  · cases h
    exact ⟨_, rfl⟩

theorem mem_keys_table {exclude : Bool} {l : List ((ℕ × ℕ) × Counts)} {ret ret' : PyDict ℕ Counts}
    (h : l.foldlM (size_counts exclude skeleton_data app skeleton) ret = .ok ret') (x : ℕ) :
    x ∈ ret'.keys ↔ x ∈ l.map (fun e => e.1.1) ∨ x ∈ ret.keys :=
  PyDict.mem_keys_foldlM (fun ret e ret' h => counts_by_set ret e ret' h) h x

theorem mem_keys_valgrind {a : DCacheAnalyzer}
    (h : run_analysis_from_valgrind a valgrind_data skeleton_data = .ok stats) (x : ℕ) :
    x ∈ stats.keys ↔ x ∈ valgrind_data.keys.map Prod.fst := by
  unfold run_analysis_from_valgrind at h
  obtain ⟨ret, hret, h⟩ := PyError.ok_of_bind h
  obtain ⟨app, -, hret⟩ := PyError.ok_of_bind hret
  obtain ⟨skeleton, -, hret⟩ := PyError.ok_of_bind hret
  rw [mem_keys_calculate h, mem_keys_table hret]
  simp [PyDict.keys]

theorem mem_keys_clamp (a : DCacheAnalyzer) (l : List (ℕ × ℚ)) (d : PyDict ℕ ℚ)
    (hmin : a.min_size ∈ d.keys) (hmax : a.max_size ∈ d.keys) (x : ℕ) :
    x ∈ (l.foldl (clamp a) d).keys ↔
      x ∈ d.keys ∨ (x ∈ l.map Prod.fst ∧ a.min_size < x ∧ x < a.max_size) := by
  induction l generalizing d with
  | nil => simp
  | cons e l ih =>
    have hkeys : ∀ y, y ∈ (clamp a d e).keys ↔
        y ∈ d.keys ∨ (y = e.1 ∧ a.min_size < y ∧ y < a.max_size) := by
      intro y
      unfold clamp add_to
      split
      · rw [PyDict.mem_keys_set]
        grind
      · split
        · rw [PyDict.mem_keys_set]
          grind
        · rw [PyDict.mem_keys_set]
          grind
    rw [List.foldl_cons, ih _ ((hkeys _).mpr (.inl hmin)) ((hkeys _).mpr (.inl hmax)), hkeys,
      List.map_cons, List.mem_cons]
    tauto

/-- The sizes of the result are the two bounds and the sizes of the table between them. -/
theorem run_analysis_spec {a : DCacheAnalyzer}
    (h : run_analysis a valgrind_data skeleton_data = .ok stats) :
    ∃ d : PyDict ℕ ℚ, stats = d.sortKeys ∧ ∀ x, x ∈ d.keys ↔ x = a.min_size ∨ x = a.max_size ∨
      (x ∈ valgrind_data.keys.map Prod.fst ∧ a.min_size < x ∧ x < a.max_size) := by
  unfold run_analysis at h
  obtain ⟨tmp, htmp, h⟩ := PyError.ok_of_bind h
  obtain ⟨d, hd, h⟩ := PyError.ok_of_bind h
  cases h
  refine ⟨d, rfl, ?_⟩
  intro x
  rw [PyDict.keys_mapM hd, mem_keys_clamp _ _ _ (by simp [PyDict.mem_keys_set])
    (by simp [PyDict.mem_keys_set]), ← PyDict.keys, mem_keys_valgrind htmp]
  simp [PyDict.mem_keys_set, or_assoc]

/-! ## The access counts -/

/-- The accesses behind the first size are those that it misses. -/
theorem sum_later_accesses (misses : ℤ) {l : List (ℕ × Counts)} (h : l ≠ []) :
    ((later_accesses misses l).map Prod.snd).sum = misses := by
  induction l generalizing misses with
  | nil => exact absurd rfl h
  | cons e rest ih =>
    cases rest with
    | nil => simp [later_accesses]
    | cons e' rest =>
      rw [later_accesses_cons_cons, List.map_cons, List.sum_cons, ih _ (List.cons_ne_nil _ _)]
      exact sub_add_cancel misses e.2.misses

theorem sum_access_counts (e : ℕ × Counts) {l : List (ℕ × Counts)} (h : l ≠ []) :
    ((access_counts (e :: l)).map Prod.snd).sum = e.2.refs := by
  rw [access_counts, List.map_cons, List.sum_cons, sum_later_accesses _ h]
  exact sub_add_cancel e.2.refs e.2.misses

/-- The misses do not grow from one size to the next. -/
def Falling (l : List (ℕ × Counts)) : Prop := l.Pairwise fun e e' => e'.2.misses ≤ e.2.misses

theorem later_accesses_nonneg {misses : ℤ} {l : List (ℕ × Counts)} (hmisses : 0 ≤ misses)
    (hnonneg : ∀ e ∈ l.dropLast, 0 ≤ e.2.misses) (hle : ∀ e ∈ l, e.2.misses ≤ misses)
    (h : Falling l) : ∀ x ∈ later_accesses misses l, 0 ≤ x.2 := by
  induction l generalizing misses with
  | nil => simp [later_accesses]
  | cons e rest ih =>
    cases rest with
    | nil => simpa [later_accesses] using hmisses
    | cons e' rest =>
      rw [List.dropLast_cons_cons, List.forall_mem_cons] at hnonneg
      rw [later_accesses_cons_cons, List.forall_mem_cons]
      exact ⟨sub_nonneg.mpr (hle e List.mem_cons_self),
        ih hnonneg.1 hnonneg.2 (List.pairwise_cons.mp h).1 (List.pairwise_cons.mp h).2⟩

/-- The misses of the largest size do not count. -/
theorem access_counts_nonneg {l : List (ℕ × Counts)}
    (hnonneg : ∀ e ∈ l.dropLast, 0 ≤ e.2.misses) (hle : ∀ e ∈ l, e.2.misses ≤ e.2.refs)
    (h : Falling l) : ∀ x ∈ access_counts l, 0 ≤ x.2 := by
  cases l with
  | nil => simp [access_counts]
  | cons e rest =>
    rw [access_counts, List.forall_mem_cons]
    refine ⟨sub_nonneg.mpr (hle e List.mem_cons_self), ?_⟩
    cases rest with
    | nil => simp [later_accesses]
    | cons e' rest =>
      rw [List.dropLast_cons_cons, List.forall_mem_cons] at hnonneg
      exact later_accesses_nonneg hnonneg.1 hnonneg.2 (List.pairwise_cons.mp h).1
        (List.pairwise_cons.mp h).2

/-- Without the exclusion, each size keeps the misses of its entry and gets the mean of the
references. -/
theorem mem_entries_table {l : List ((ℕ × ℕ) × Counts)} {ret ret' : PyDict ℕ Counts}
    (h : l.foldlM (size_counts false skeleton_data app skeleton) ret = .ok ret') {x : ℕ × Counts}
    (hx : x ∈ ret'.entries) :
    x ∈ ret.entries ∨
      (x.2.refs = app.refs ∧ ∃ e ∈ l, x.1 = e.1.1 ∧ x.2.misses = e.2.misses) := by
  induction l generalizing ret with
  | nil =>
    cases h
    exact .inl hx
  | cons e l ih =>
    rw [List.foldlM_cons] at h
    obtain ⟨ret₁, hret₁, h⟩ := PyError.ok_of_bind h
    rcases ih h with hx | ⟨hrefs, e', he', hx⟩
    · cases hret₁
      rcases PyDict.mem_entries_set hx with ⟨hkey, hval⟩ | hx
      · exact .inr ⟨by rw [hval], e, List.mem_cons_self, hkey, by rw [hval]⟩
      · exact .inl hx
    · exact .inr ⟨hrefs, e', List.mem_cons_of_mem _ he', hx⟩

/-- The mean of equal numbers. -/
theorem int_mean_of_forall {l : List ℤ} {n m : ℤ} (hl : ∀ x ∈ l, x = n) (h : int_mean l = .ok m) :
    m = n := by
  unfold int_mean at h
  split at h
  · cases h
  · rename_i hne
    cases h
    have hpos : (l.length : ℚ) ≠ 0 := by simpa using hne
    rw [List.eq_replicate_of_mem hl, List.sum_replicate, List.length_replicate, nsmul_eq_mul]
    push_cast
    rw [mul_div_cancel_left₀ _ hpos, truncate_intCast]

/-! ## The slots -/

theorem cache_sizes_eq : CACHE_SIZES = (List.range 23).map fun i => 64 * 2 ^ i := by decide +kernel

theorem mem_cache_sizes {x : ℕ} : x ∈ CACHE_SIZES ↔ ∃ i < 23, x = 64 * 2 ^ i := by
  simp [cache_sizes_eq, eq_comm]

/-- The swept sizes from number `i` to number `j`. -/
def sizesBetween (i j : ℕ) : List ℕ := (List.range' i (j + 1 - i)).map fun k => 64 * 2 ^ k

theorem size_lt_size_iff {i j : ℕ} : 64 * 2 ^ i < 64 * 2 ^ j ↔ i < j := by
  rw [Nat.mul_lt_mul_left (by decide)]
  exact Nat.pow_lt_pow_iff_right (by decide)

theorem mem_sizesBetween {i j x : ℕ} : x ∈ sizesBetween i j ↔ ∃ k, i ≤ k ∧ k ≤ j ∧ x = 64 * 2 ^ k := by
  simp only [sizesBetween, List.mem_map, List.mem_range'_1]
  constructor
  · rintro ⟨k, hk, rfl⟩
    exact ⟨k, by omega, by omega, rfl⟩
  · rintro ⟨k, hik, hkj, rfl⟩
    exact ⟨k, by omega, rfl⟩

theorem pairwise_sizesBetween (i j : ℕ) : (sizesBetween i j).Pairwise (· < ·) := by
  have hrange : (List.range' i (j + 1 - i)).Pairwise (· < ·) := List.pairwise_lt_range'
  exact List.pairwise_map.mpr (hrange.imp size_lt_size_iff.mpr)

/-- The table has exactly the swept sizes. -/
def Swept (table : Table) : Prop := ∀ x, x ∈ table.keys.map Prod.fst ↔ x ∈ CACHE_SIZES

/-- With both bounds among the swept sizes, the result has all swept sizes between them. -/
theorem keys_run_analysis {a : DCacheAnalyzer} {i j : ℕ} (hswept : Swept valgrind_data)
    (hij : i ≤ j) (hj : j < 23) (hmin : a.min_size = 64 * 2 ^ i) (hmax : a.max_size = 64 * 2 ^ j)
    (h : run_analysis a valgrind_data skeleton_data = .ok stats) :
    stats.keys = sizesBetween i j := by
  obtain ⟨d, rfl, hd⟩ := run_analysis_spec h
  apply PyDict.keys_sortKeys_eq (pairwise_sizesBetween i j)
  intro x
  rw [hd, hswept, mem_sizesBetween, hmin, hmax, mem_cache_sizes]
  constructor
  · rintro (rfl | rfl | ⟨⟨k, -, rfl⟩, hlow, hhigh⟩)
    · exact ⟨i, le_refl i, hij, rfl⟩
    · exact ⟨j, hij, le_refl j, rfl⟩
    · exact ⟨k, le_of_lt (size_lt_size_iff.mp hlow), le_of_lt (size_lt_size_iff.mp hhigh), rfl⟩
  · rintro ⟨k, hik, hkj, rfl⟩
    rcases Nat.eq_or_lt_of_le hik with rfl | hik
    · exact .inl rfl
    · rcases Nat.eq_or_lt_of_le hkj with rfl | hkj
      · exact .inr (.inl rfl)
      · exact .inr (.inr ⟨⟨k, by omega, rfl⟩, size_lt_size_iff.mpr hik, size_lt_size_iff.mpr hkj⟩)

theorem getElem_sizesBetween {i j n : ℕ} (h : n < (sizesBetween i j).length) :
    (sizesBetween i j)[n] = 64 * 2 ^ (i + n) := by
  simp [sizesBetween]

/-- A size is as far behind the lower bound as its position says. -/
theorem size_eq_of_idxOf {i j x : ℕ} (h : x ∈ sizesBetween i j) :
    (sizesBetween i j).idxOf x < j + 1 - i ∧ x = 64 * 2 ^ (i + (sizesBetween i j).idxOf x) := by
  have hlt := List.idxOf_lt_length_of_mem h
  constructor
  · simpa [sizesBetween] using hlt
  · exact (List.getElem_idxOf hlt).symm.trans (getElem_sizesBetween hlt)

/-! ## The laws -/

/-- The slot of a block has the size of the block exactly when the lower bound of the sizes is
one cache line, for whatever block the generator writes. -/
theorem slots_have_their_size_iff_the_lower_bound_is_a_line (a : DCacheAnalyzer)
    (hmin : a.min_size ∈ CACHE_SIZES) (hmax : a.max_size ∈ CACHE_SIZES)
    (hle : a.min_size ≤ a.max_size) (valgrind_data skeleton_data : Table)
    (hswept : Swept valgrind_data) (g : Generator)
    (h : run_analysis a valgrind_data skeleton_data = .ok g.dcache_stats) (s : Submission)
    (d : BlockDraws) (blk : AsmBlock) (hblk : generate_asm_block g s d = .ok (some blk)) :
    (blk.mem_id < 23 ∧ cache_init_size <<< blk.mem_id = s.mem_size) ↔ a.min_size = 64 := by
  obtain ⟨i, -, hi⟩ := mem_cache_sizes.mp hmin
  obtain ⟨j, hj, hj'⟩ := mem_cache_sizes.mp hmax
  have hij : i ≤ j := by
    by_contra hlt
    have := size_lt_size_iff.mpr (Nat.lt_of_not_le hlt)
    omega
  have hkeys := keys_run_analysis hswept hij hj hi hj' h
  have hfrom := ditto.assembly_generator.generate_asm_block_spec hblk
  obtain ⟨lines, lines', -, -, -, rfl⟩ := hfrom.lines
  have hmem := hfrom.mem_size_mem
  rw [hkeys] at hmem
  obtain ⟨hlt, hsize⟩ := size_eq_of_idxOf hmem
  rw [ditto.assembly_generator.block_text]
  simp only [hkeys]
  rw [Nat.shiftLeft_eq, cache_init_size, hi]
  generalize (sizesBetween i j).idxOf s.mem_size = id at hlt hsize
  rw [hsize, Nat.pow_add, ← Nat.mul_assoc]
  constructor
  · rintro ⟨-, heq⟩
    exact (Nat.eq_of_mul_eq_mul_right (Nat.two_pow_pos id) heq).symm
  · intro heq
    exact ⟨by omega, by rw [heq]⟩

/-- A sweep in which every cache misses one of four accesses. -/
def sweep : Table :=
  PyDict.ofList (CACHE_SIZES.map fun size =>
    ((size, min 8 (size / CACHELINE_SIZE)), ⟨4, 3, 1, 1, 1, 0⟩))

theorem swept_sweep : Swept sweep := by
  intro x
  rw [sweep, List.mem_map]
  simp only [PyDict.mem_keys_ofList, List.map_map, List.mem_map]
  simp

def upTo256M (min_size : ℕ) : DCacheAnalyzer := ⟨false, min_size, 256 * 1024 * 1024⟩

/-- The generator after the sweep. -/
def sweptGenerator (min_size : ℕ) : Generator :=
  { ditto.assembly_generator.oneLine with
    dcache_stats := ((run_analysis (upTo256M min_size) sweep sweep).toOption).getD .empty }

def loadsOf (mem_size : ℕ) : Submission :=
  { ditto.assembly_generator.loadBlock with mem_size := mem_size }

theorem exists_block {r : Except PyError (Option AsmBlock)} {n : ℕ}
    (h : r.toOption.join.map AsmBlock.mem_id = some n) :
    ∃ blk, r = .ok (some blk) ∧ blk.mem_id = n := by
  rcases r with err | _ | blk
  · cases h
  · cases h
  · exact ⟨blk, rfl, Option.some.inj h⟩

/-- The blocks of 4096 bytes have the slot 6 after a sweep from one cache line on. -/
theorem slots_have_their_size_after_a_sweep :
    ∃ blk, generate_asm_block (sweptGenerator 64) (loadsOf 4096)
      ditto.assembly_generator.loadDraws = .ok (some blk) ∧ blk.mem_id = 6 ∧ blk.mem_id < 23 ∧
      cache_init_size <<< blk.mem_id = 4096 := by
  have hrun : run_analysis (upTo256M 64) sweep sweep = .ok (sweptGenerator 64).dcache_stats := by
    decide +kernel
  obtain ⟨blk, hblk, hid⟩ := @exists_block (generate_asm_block (sweptGenerator 64) (loadsOf 4096)
    ditto.assembly_generator.loadDraws) 6 (by decide +kernel)
  exact ⟨blk, hblk, hid, (slots_have_their_size_iff_the_lower_bound_is_a_line (upTo256M 64)
    (by decide) (by decide) (by decide) sweep sweep swept_sweep (sweptGenerator 64) hrun
    (loadsOf 4096) _ blk hblk).mpr rfl⟩

/-- With a lower bound of two cache lines, the blocks of two lines get the slot of one line. -/
theorem two_lines_get_the_slot_of_one_line :
    run_analysis (upTo256M 128) sweep sweep = .ok (sweptGenerator 128).dcache_stats ∧
      ∃ blk, generate_asm_block (sweptGenerator 128) (loadsOf 128)
        ditto.assembly_generator.loadDraws = .ok (some blk) ∧
        ¬ (blk.mem_id < 23 ∧ cache_init_size <<< blk.mem_id = (loadsOf 128).mem_size) := by
  refine ⟨by decide +kernel, ?_⟩
  obtain ⟨blk, hblk, hid⟩ := @exists_block (generate_asm_block (sweptGenerator 128) (loadsOf 128)
    ditto.assembly_generator.loadDraws) 0 (by decide +kernel)
  refine ⟨blk, hblk, ?_⟩
  rw [hid]
  decide

end ditto.dcache_analyzer
