-- The simulated caches of the sweep, as callgrind has them: a set is a run of
-- tags with the most recent one in front. A larger cache of the sweep has
-- longer sets or finer ones, so it hits whenever a smaller one does.
import Ditto.DCache
import Ditto.Lib.Lru
import Mathlib.Data.Nat.Bitwise

open ditto.dcache_analyzer

namespace ditto.callgrind

/-! ## The model -/

inductive CacheResult
  | Hit | Miss
deriving DecidableEq

structure cache_t where
  size : ℕ
  assoc : ℕ
  line_size : ℕ

/-- A cache. Its tags are one array, with one run of `assoc` tags for each set. -/
structure cache_t2 where
  size : ℕ
  assoc : ℕ
  line_size : ℕ
  sets : ℕ
  sets_min_1 : ℕ
  line_size_bits : ℕ
  tags : ℕ → BitVec 64

def cachesim_initcache (config : cache_t) : cache_t2 :=
  let sets := config.size / config.line_size / config.assoc
  { size := config.size
    assoc := config.assoc
    line_size := config.line_size
    sets := sets
    sets_min_1 := sets - 1
    line_size_bits := Nat.log2 config.line_size
    tags := fun _ => 0 }

/-- The loop that moves the first `j` tags of a set down. -/
def shuffle_down (set : ℕ) : ℕ → (ℕ → BitVec 64) → ℕ → BitVec 64
  | 0, tags => tags
  | j + 1, tags => shuffle_down set j (Function.update tags (set + (j + 1)) (tags (set + j)))

/-- The loop that looks for a tag, from way `i` on. -/
def find_way (tags : ℕ → BitVec 64) (set : ℕ) (tag : BitVec 64) : ℕ → ℕ → Option ℕ
  | 0, _ => none
  | left + 1, i => if tag = tags (set + i) then some i else find_way tags set tag left (i + 1)

/-- The tags with `tag` in front of the set, and the first `j` tags one further down. -/
def install (set j : ℕ) (tag : BitVec 64) (tags : ℕ → BitVec 64) : ℕ → BitVec 64 :=
  Function.update (shuffle_down set j tags) set tag

def cachesim_setref (c : cache_t2) (set_no : ℕ) (tag : BitVec 64) : CacheResult × cache_t2 :=
  let set := set_no * c.assoc
  if tag = c.tags set then (.Hit, c)
  else
    match find_way c.tags set tag (c.assoc - 1) 1 with
    | some i => (.Hit, { c with tags := install set i tag c.tags })
    | none => (.Miss, { c with tags := install set (c.assoc - 1) tag c.tags })

/-- The set of a block. -/
def cache_t2.set_of (c : cache_t2) (block : BitVec 64) : ℕ :=
  ((block &&& BitVec.ofNat 64 c.sets_min_1).setWidth 32).toNat

/-- One access, with `none` for a panic. -/
def cachesim_ref (c : cache_t2) (a : BitVec 64) (size : BitVec 8) :
    Option (CacheResult × cache_t2) :=
  let block1 := a >>> c.line_size_bits
  let block2 := (a + size.setWidth 64 - 1) >>> c.line_size_bits
  if block1 = block2 then some (cachesim_setref c (c.set_of block1) block1)
  else if block1 + 1 = block2 then
    let (res1, c) := cachesim_setref c (c.set_of block1) block1
    let (res2, c) := cachesim_setref c (c.set_of block2) block2
    some (if res1 = .Miss ∨ res2 = .Miss then .Miss else .Hit, c)
  else none

/-- The address and the size of each access. -/
abbrev Trace := List (BitVec 64 × BitVec 8)

/-- The results of all accesses. -/
def simulate (c : cache_t2) : Trace → Option (List CacheResult)
  | [] => some []
  | x :: trace => do
    let (res, c) ← cachesim_ref c x.1 x.2
    let results ← simulate c trace
    return res :: results

/-- The configuration of the sweep for a size. -/
def sweep_config (cache_size : ℕ) : cache_t :=
  let associativity := 8
  { size := cache_size
    assoc := if associativity * CACHELINE_SIZE > cache_size then cache_size / CACHELINE_SIZE
      else associativity
    line_size := CACHELINE_SIZE }

/-! ## One set -/

/-- A run of `n` tags. -/
def row (tags : ℕ → BitVec 64) (set n : ℕ) : List (BitVec 64) :=
  (List.range n).map fun i => tags (set + i)

theorem shuffle_down_apply (set j : ℕ) (tags : ℕ → BitVec 64) (p : ℕ) :
    shuffle_down set j tags p = if set < p ∧ p ≤ set + j then tags (p - 1) else tags p := by
  induction j generalizing tags with
  | zero => rw [shuffle_down, if_neg (by omega)]
  | succ j ih =>
    unfold shuffle_down
    rw [ih]
    by_cases hp : p = set + (j + 1)
    · subst hp
      rw [if_neg (by omega), if_pos (by omega), Function.update_self]
      rfl
    · rw [Function.update_of_ne hp]
      by_cases hin : set < p ∧ p ≤ set + j
      · rw [if_pos hin, if_pos (by omega), Function.update_of_ne (by omega)]
      · rw [if_neg hin, if_neg (by omega)]

variable {tag : BitVec 64} {tags : ℕ → BitVec 64}

theorem install_of_lt {set j p : ℕ} (h : p < set ∨ set + j < p) :
    install set j tag tags p = tags p := by
  rw [install, Function.update_of_ne (by omega), shuffle_down_apply, if_neg (by omega)]

/-- The set takes the new tag in front of the tags without way `j`. -/
theorem row_install {set j n : ℕ} (tag : BitVec 64) (tags : ℕ → BitVec 64) (hj : j < n) :
    row (install set j tag tags) set n = tag :: (row tags set n).eraseIdx j := by
  apply List.ext_getElem
  · rw [List.length_cons, List.length_eraseIdx_of_lt (by simpa [row] using hj)]
    simp [row]
    omega
  · intro k hk _
    have hkn : k < n := by simpa [row] using hk
    cases k with
    | zero => simp [row, install]
    | succ k =>
      simp only [row, List.getElem_map, List.getElem_range, List.getElem_cons_succ,
        List.getElem_eraseIdx, install]
      rw [Function.update_of_ne (by omega), shuffle_down_apply]
      by_cases hkj : k < j
      · rw [if_pos (by omega), dif_pos hkj]
        rfl
      · rw [if_neg (by omega), dif_neg hkj]

theorem getElem?_row {set n k : ℕ} :
    (row tags set n)[k]? = some tag ↔ k < n ∧ tags (set + k) = tag := by
  simp [row, List.getElem?_eq_some_iff]

theorem find_way_some {set left i k : ℕ} (h : find_way tags set tag left i = some k) :
    k < i + left ∧ tags (set + k) = tag ∧ ∀ m, i ≤ m → m < k → tags (set + m) ≠ tag := by
  induction left generalizing i with
  | zero => cases h
  | succ left ih =>
    unfold find_way at h
    split at h
    · rename_i htag
      cases h
      exact ⟨by omega, htag.symm, fun m hm hlt => by omega⟩
    · rename_i htag
      obtain ⟨hlt, heq, hfirst⟩ := ih h
      refine ⟨by omega, heq, fun m hm hmk => ?_⟩
      rcases Nat.eq_or_lt_of_le hm with rfl | hm
      · exact Ne.symm htag
      · exact hfirst m hm hmk

theorem find_way_none {set left i : ℕ} (h : find_way tags set tag left i = none) :
    ∀ m, i ≤ m → m < i + left → tags (set + m) ≠ tag := by
  induction left generalizing i with
  | zero => exact fun m hm hlt => by omega
  | succ left ih =>
    unfold find_way at h
    split at h
    · cases h
    · rename_i htag
      intro m hm hlt
      rcases Nat.eq_or_lt_of_le hm with rfl | hm
      · exact Ne.symm htag
      · exact ih h m hm (by omega)

/-- What `cachesim_setref` does: it hits on a tag of the set, moves it to the front or puts it
there, and leaves everything else as it is. -/
structure SetRef (c : cache_t2) (set_no : ℕ) (tag : BitVec 64) (res : CacheResult)
    (c' : cache_t2) : Prop where
  same : c' = { c with tags := c'.tags }
  hit_iff : res = .Hit ↔ tag ∈ row c.tags (set_no * c.assoc) c.assoc
  row_eq : row c'.tags (set_no * c.assoc) c.assoc =
    Lru.use (row c.tags (set_no * c.assoc) c.assoc) tag
  frame : ∀ p, p < set_no * c.assoc ∨ set_no * c.assoc + c.assoc ≤ p → c'.tags p = c.tags p

theorem mem_row {set n k : ℕ} (hk : k < n) (htag : tags (set + k) = tag) : tag ∈ row tags set n :=
  List.mem_of_getElem? (getElem?_row.mpr ⟨hk, htag⟩)

/-- A hit in the first way with the tag. -/
theorem use_row_of_first {set n i : ℕ} (hi : i < n) (htag : tags (set + i) = tag)
    (hfirst : ∀ m < i, tags (set + m) ≠ tag) :
    Lru.use (row tags set n) tag = tag :: (row tags set n).eraseIdx i := by
  rw [Lru.use, if_pos (mem_row hi htag), Lru.erase_eq_eraseIdx (getElem?_row.mpr ⟨hi, htag⟩)]
  exact fun m hm hget => hfirst m hm (getElem?_row.mp hget).2

theorem use_row_of_miss {set n : ℕ} (hn : 0 < n) (hmiss : tag ∉ row tags set n) :
    Lru.use (row tags set n) tag = tag :: (row tags set n).eraseIdx (n - 1) := by
  have hlast : n - 1 + 1 = (row tags set n).length := by
    simp [row]
    omega
  rw [Lru.use, if_neg hmiss, List.eraseIdx_eq_dropLast hlast]

theorem not_mem_row {set n : ℕ} (hfront : tag ≠ tags set)
    (hfind : find_way tags set tag (n - 1) 1 = none) : tag ∉ row tags set n := by
  intro hmem
  obtain ⟨m, hm⟩ := List.mem_iff_getElem?.mp hmem
  obtain ⟨hlt, htag⟩ := getElem?_row.mp hm
  rcases Nat.eq_zero_or_pos m with rfl | hpos
  · exact hfront htag.symm
  · exact find_way_none hfind m hpos (by omega) htag

theorem cachesim_setref_spec {c : cache_t2} (hassoc : 0 < c.assoc) (set_no : ℕ) (tag : BitVec 64) :
    SetRef c set_no tag (cachesim_setref c set_no tag).1 (cachesim_setref c set_no tag).2 := by
  rcases h : cachesim_setref c set_no tag with ⟨res, c'⟩
  unfold cachesim_setref at h
  simp only at h
  split at h
  · rename_i htag
    cases h
    have hzero : c.tags (set_no * c.assoc + 0) = tag := htag.symm
    refine ⟨rfl, ⟨fun _ => mem_row hassoc hzero, fun _ => rfl⟩, ?_, fun _ _ => rfl⟩
    rw [use_row_of_first hassoc hzero (by omega)]
    obtain ⟨n, hn⟩ := Nat.exists_eq_succ_of_ne_zero (Nat.ne_of_gt hassoc)
    simp [row, hn, List.range_succ_eq_map, ← hzero]
  · rename_i hfront
    split at h
    · rename_i i hfind
      cases h
      obtain ⟨hi, htag, hfirst⟩ := find_way_some hfind
      have hi' : i < c.assoc := by omega
      have hall : ∀ m < i, c.tags (set_no * c.assoc + m) ≠ tag := by
        intro m hm
        rcases Nat.eq_zero_or_pos m with rfl | hpos
        · exact Ne.symm hfront
        · exact hfirst m hpos hm
      refine ⟨rfl, ⟨fun _ => mem_row hi' htag, fun _ => rfl⟩, ?_,
        fun p hp => install_of_lt (by omega)⟩
      rw [use_row_of_first hi' htag hall]
      exact row_install tag c.tags hi'
    · rename_i hfind
      cases h
      have hmiss := not_mem_row hfront hfind
      refine ⟨rfl, ⟨nofun, fun h => absurd h hmiss⟩, ?_, fun p hp => install_of_lt (by omega)⟩
      rw [use_row_of_miss hassoc hmiss]
      exact row_install tag c.tags (by omega)

/-! ## Two caches -/

/-- The sets of a cache are a power of two, and its lines have 64 bytes. -/
structure WellFormed (c : cache_t2) : Prop where
  assoc_pos : 0 < c.assoc
  sets_eq : ∃ m ≤ 32, c.sets = 2 ^ m
  sets_min_1_eq : c.sets_min_1 = c.sets - 1
  bits_eq : c.line_size_bits = 6

theorem WellFormed.sets_pos {c : cache_t2} (h : WellFormed c) : 0 < c.sets := by
  obtain ⟨m, -, hm⟩ := h.sets_eq
  rw [hm]
  exact Nat.two_pow_pos m

theorem WellFormed.set_of_eq {c : cache_t2} (h : WellFormed c) (block : BitVec 64) :
    c.set_of block = block.toNat % c.sets := by
  obtain ⟨m, hm, hsets⟩ := h.sets_eq
  have hlt : 2 ^ m - 1 < 2 ^ 64 := by
    have : 2 ^ m ≤ 2 ^ 32 := Nat.pow_le_pow_right (by decide) hm
    omega
  have hle : block.toNat % 2 ^ m < 2 ^ 32 :=
    Nat.lt_of_lt_of_le (Nat.mod_lt _ (Nat.two_pow_pos m)) (Nat.pow_le_pow_right (by decide) hm)
  rw [cache_t2.set_of, BitVec.toNat_setWidth, BitVec.toNat_and, BitVec.toNat_ofNat,
    h.sets_min_1_eq, hsets, Nat.mod_eq_of_lt hlt, Nat.and_two_pow_sub_one_eq_mod,
    Nat.mod_eq_of_lt hle]

/-- Every set of the cache holds the most recent blocks of its class. -/
def Tracks (c : cache_t2) (r : List (BitVec 64)) : Prop :=
  ∀ s < c.sets, row c.tags (s * c.assoc) c.assoc =
    Lru.pad 0 c.assoc (r.filter fun b => b.toNat % c.sets = s)

theorem Tracks.setref {c : cache_t2} {r : List (BitVec 64)} (h : Tracks c r) (hwf : WellFormed c)
    {block : BitVec 64} (hblock : block ≠ 0) :
    ((cachesim_setref c (c.set_of block) block).1 = .Hit ↔
      Lru.Hits (fun b : BitVec 64 => b.toNat % c.sets) c.assoc r block) ∧
    Tracks (cachesim_setref c (c.set_of block) block).2 (Lru.touch r block) := by
  have hspec := cachesim_setref_spec hwf.assoc_pos (c.set_of block) block
  have hlt : block.toNat % c.sets < c.sets := Nat.mod_lt _ hwf.sets_pos
  rw [hwf.set_of_eq] at hspec ⊢
  generalize cachesim_setref c (block.toNat % c.sets) block = result at hspec
  constructor
  · rw [hspec.hit_iff, h _ hlt, Lru.mem_pad hblock]
    rfl
  · intro s hs
    rw [hspec.same] at hs ⊢
    simp only at hs ⊢
    rw [Lru.filter_touch (fun b : BitVec 64 => b.toNat % c.sets)]
    split
    · rename_i hclass
      subst hclass
      rw [hspec.row_eq, h _ hlt, Lru.use_pad hblock hwf.assoc_pos]
    · rename_i hclass
      rw [← h s hs]
      apply List.map_congr_left
      intro i hi
      -- The other sets are runs of the array in front of this one or behind it.
      apply hspec.frame
      have hi' := List.mem_range.mp hi
      rcases Nat.lt_or_gt_of_ne hclass with hlt' | hlt'
      · have := Nat.mul_le_mul_right c.assoc (Nat.succ_le_of_lt hlt')
        rw [Nat.succ_mul] at this
        omega
      · have := Nat.mul_le_mul_right c.assoc (Nat.succ_le_of_lt hlt')
        rw [Nat.succ_mul] at this
        omega

/-- Two caches after the same accesses. The second one has at least as many ways, and its sets
are parts of the sets of the first. -/
structure Included (c c' : cache_t2) : Prop where
  wf : WellFormed c
  wf' : WellFormed c'
  assoc_le : c.assoc ≤ c'.assoc
  sets_dvd : c.sets ∣ c'.sets
  recency : ∃ r, Tracks c r ∧ Tracks c' r

theorem WellFormed.setref {c : cache_t2} (h : WellFormed c) (set_no : ℕ) (tag : BitVec 64) :
    WellFormed (cachesim_setref c set_no tag).2 := by
  have hspec := cachesim_setref_spec h.assoc_pos set_no tag
  rw [hspec.same]
  exact ⟨h.assoc_pos, h.sets_eq, h.sets_min_1_eq, h.bits_eq⟩

variable {c' : cache_t2}

/-- The larger cache hits whenever the smaller one does. -/
theorem Included.setref {c c' : cache_t2} (h : Included c c') {block : BitVec 64}
    (hblock : block ≠ 0) :
    ((cachesim_setref c (c.set_of block) block).1 = .Hit →
      (cachesim_setref c' (c'.set_of block) block).1 = .Hit) ∧
    Included (cachesim_setref c (c.set_of block) block).2
      (cachesim_setref c' (c'.set_of block) block).2 := by
  obtain ⟨r, hr, hr'⟩ := h.recency
  obtain ⟨hhit, hnext⟩ := hr.setref h.wf hblock
  obtain ⟨hhit', hnext'⟩ := hr'.setref h.wf' hblock
  have hclass (x y : BitVec 64) (hxy : x.toNat % c'.sets = y.toNat % c'.sets) :
      x.toNat % c.sets = y.toNat % c.sets := by
    rw [← Nat.mod_mod_of_dvd x.toNat h.sets_dvd, hxy, Nat.mod_mod_of_dvd _ h.sets_dvd]
  have hsame := (cachesim_setref_spec h.wf.assoc_pos (c.set_of block) block).same
  have hsame' := (cachesim_setref_spec h.wf'.assoc_pos (c'.set_of block) block).same
  refine ⟨?_, h.wf.setref _ _, h.wf'.setref _ _, ?_, ?_, _, hnext, hnext'⟩
  · rw [hhit, hhit']
    exact Lru.Hits.mono hclass h.assoc_le
  · rw [hsame, hsame']
    exact h.assoc_le
  · rw [hsame, hsame']
    exact h.sets_dvd

/-- Neither block of the access is block 0. -/
def AvoidsZero (x : BitVec 64 × BitVec 8) : Prop :=
  x.1 >>> 6 ≠ 0 ∧ (x.1 + x.2.setWidth 64 - 1) >>> 6 ≠ 0

instance (x : BitVec 64 × BitVec 8) : Decidable (AvoidsZero x) :=
  inferInstanceAs (Decidable (_ ∧ _))

/-- A miss in the larger cache is a miss in the smaller one. -/
def MissesMore (res res' : CacheResult) : Prop := res' = .Miss → res = .Miss

theorem missesMore_of_hit {res res' : CacheResult} (h : res = .Hit → res' = .Hit) :
    MissesMore res res' := by
  cases res <;> cases res' <;> simp_all [MissesMore]

/-- Both caches panic, or both go on. -/
theorem Included.ref {c : cache_t2} (h : Included c c') {x : BitVec 64 × BitVec 8}
    (hx : AvoidsZero x) :
    Option.Rel (fun y y' => MissesMore y.1 y'.1 ∧ Included y.2 y'.2)
      (cachesim_ref c x.1 x.2) (cachesim_ref c' x.1 x.2) := by
  unfold cachesim_ref
  simp only [h.wf.bits_eq, h.wf'.bits_eq]
  obtain ⟨hhit₁, hnext₁⟩ := h.setref hx.1
  split
  · exact .some ⟨missesMore_of_hit hhit₁, hnext₁⟩
  · split
    · obtain ⟨hhit₂, hnext₂⟩ := hnext₁.setref hx.2
      refine .some ⟨?_, hnext₂⟩
      have h₁ := missesMore_of_hit hhit₁
      have h₂ := missesMore_of_hit hhit₂
      simp only [MissesMore] at h₁ h₂ ⊢
      grind
    · exact .none

/-- Both runs panic, or both end, and each miss of the larger cache is one of the smaller. -/
theorem Included.simulate {c : cache_t2} (h : Included c c') {trace : Trace}
    (htrace : ∀ x ∈ trace, AvoidsZero x) :
    Option.Rel (List.Forall₂ MissesMore) (simulate c trace) (simulate c' trace) := by
  induction trace generalizing c c' with
  | nil => exact .some .nil
  | cons x trace ih =>
    have hx := h.ref (htrace x List.mem_cons_self)
    unfold callgrind.simulate
    generalize cachesim_ref c x.1 x.2 = y at hx
    generalize cachesim_ref c' x.1 x.2 = y' at hx
    cases hx with
    | none => exact .none
    | some hy =>
      have hrest := ih hy.2 fun x hx => htrace x (List.mem_cons_of_mem _ hx)
      simp only [bind, Option.bind, pure]
      generalize callgrind.simulate _ trace = z at hrest
      generalize callgrind.simulate _ trace = z' at hrest
      cases hrest with
      | none => exact .none
      | some hz => exact .some (.cons hy.1 hz)

variable {results : List CacheResult}

theorem count_miss_le {results' : List CacheResult} (h : List.Forall₂ MissesMore results results') :
    results'.count .Miss ≤ results.count .Miss := by
  induction h with
  | nil => exact le_refl _
  | @cons res res' l l' hres _ ih =>
    rw [List.count_cons, List.count_cons]
    cases res' with
    | Hit => simp; omega
    | Miss =>
      rw [hres rfl]
      omega

/-! ## The sweep -/

/-- The small caches are one set, and the others have eight ways. -/
theorem sweep_geometry {k : ℕ} (hk : k < 23) :
    (cachesim_initcache (sweep_config (64 * 2 ^ k))).assoc = 2 ^ min k 3 ∧
      (cachesim_initcache (sweep_config (64 * 2 ^ k))).sets = 2 ^ (k - 3) := by
  have hall : ∀ k < 23, (cachesim_initcache (sweep_config (64 * 2 ^ k))).assoc = 2 ^ min k 3 ∧
      (cachesim_initcache (sweep_config (64 * 2 ^ k))).sets = 2 ^ (k - 3) := by decide +kernel
  exact hall k hk

theorem wellFormed_sweep {k : ℕ} (hk : k < 23) :
    WellFormed (cachesim_initcache (sweep_config (64 * 2 ^ k))) := by
  obtain ⟨hassoc, hsets⟩ := sweep_geometry hk
  have hbits : Nat.log2 CACHELINE_SIZE = 6 := by decide
  refine ⟨?_, ⟨k - 3, by omega, hsets⟩, rfl, by simpa [cachesim_initcache, sweep_config] using hbits⟩
  rw [hassoc]
  exact Nat.two_pow_pos _

theorem tracks_initcache (config : cache_t) : Tracks (cachesim_initcache config) [] := by
  intro s _
  simp [cachesim_initcache, row, Lru.pad]

variable {size' : ℕ}

theorem included_sweep {size size' : ℕ} (hsize : size ∈ CACHE_SIZES) (hsize' : size' ∈ CACHE_SIZES)
    (hle : size ≤ size') :
    Included (cachesim_initcache (sweep_config size)) (cachesim_initcache (sweep_config size')) := by
  obtain ⟨k, hk, rfl⟩ := mem_cache_sizes.mp hsize
  obtain ⟨k', hk', rfl⟩ := mem_cache_sizes.mp hsize'
  have hkk' : k ≤ k' := by
    by_contra hlt
    have := size_lt_size_iff.mpr (Nat.lt_of_not_le hlt)
    omega
  obtain ⟨hassoc, hsets⟩ := sweep_geometry hk
  obtain ⟨hassoc', hsets'⟩ := sweep_geometry hk'
  refine ⟨wellFormed_sweep hk, wellFormed_sweep hk', ?_, ?_, [], tracks_initcache _,
    tracks_initcache _⟩
  · rw [hassoc, hassoc']
    exact Nat.pow_le_pow_right (by decide) (by omega)
  · rw [hsets, hsets']
    exact Nat.pow_dvd_pow 2 (by omega)

/-- The results of the sweep for a size. -/
def sweep_results (trace : Trace) (size : ℕ) : Option (List CacheResult) :=
  simulate (cachesim_initcache (sweep_config size)) trace

/-- The table that the sweep writes for a trace: every size once, with its misses, and with one
reference for each access. -/
structure SweepTable (trace : Trace) (table : Table) : Prop where
  swept : Swept table
  refs_eq : ∀ e ∈ table.entries, e.2.refs = trace.length
  misses_eq : ∀ e ∈ table.entries, ∃ results, sweep_results trace e.1.1 = some results ∧
    e.2.misses = results.count .Miss

theorem length_of_simulate {c : cache_t2} {trace : Trace} (h : simulate c trace = some results) :
    results.length = trace.length := by
  induction trace generalizing c results with
  | nil =>
    cases h
    rfl
  | cons x trace ih =>
    simp only [simulate, Option.bind_eq_bind, Option.bind_eq_some_iff] at h
    obtain ⟨y, -, results', hresults', h⟩ := h
    cases h
    rw [List.length_cons, ih hresults', List.length_cons]

/-! ## The laws -/

theorem sweep_results_rel {trace : Trace} (htrace : ∀ x ∈ trace, AvoidsZero x) {size : ℕ}
    (hsize : size ∈ CACHE_SIZES) (hsize' : size' ∈ CACHE_SIZES) (hle : size ≤ size') :
    Option.Rel (List.Forall₂ MissesMore) (sweep_results trace size) (sweep_results trace size') :=
  (included_sweep hsize hsize' hle).simulate htrace

theorem sweep_misses_le {trace : Trace} (htrace : ∀ x ∈ trace, AvoidsZero x) {size : ℕ}
    (hsize : size ∈ CACHE_SIZES) (hsize' : size' ∈ CACHE_SIZES) (hle : size ≤ size')
    {results' : List CacheResult} (h : sweep_results trace size = some results)
    (h' : sweep_results trace size' = some results') :
    results'.count .Miss ≤ results.count .Miss := by
  have hrel := sweep_results_rel htrace hsize hsize' hle
  rw [h, h'] at hrel
  cases hrel with
  | some hrel => exact count_miss_le hrel

/-- What the loop over the table hands to the access counts. -/
theorem SweepTable.entry {trace : Trace} {table skeleton_data : Table} {app skeleton : Counts}
    {ret : PyDict ℕ Counts} (h : SweepTable trace table) (hmean : mean_refs table = .ok app)
    (hret : table.entries.foldlM (size_counts false skeleton_data app skeleton) .empty = .ok ret)
    {x : ℕ × Counts} (hx : x ∈ ret.entries) :
    x.1 ∈ CACHE_SIZES ∧ x.2.refs = trace.length ∧
      ∃ results, sweep_results trace x.1 = some results ∧ x.2.misses = results.count .Miss := by
  rcases mem_entries_table hret hx with hx | ⟨hrefs, e, he, hkey, hmisses⟩
  · cases hx
  · have happ : app.refs = trace.length := by
      unfold mean_refs at hmean
      obtain ⟨refs, hmean_refs, hmean⟩ := PyError.ok_of_bind hmean
      obtain ⟨_, -, hmean⟩ := PyError.ok_of_bind hmean
      obtain ⟨_, -, hmean⟩ := PyError.ok_of_bind hmean
      cases hmean
      refine int_mean_of_forall ?_ hmean_refs
      simp only [PyDict.values, List.mem_map]
      rintro _ ⟨_, ⟨e, he, rfl⟩, rfl⟩
      exact h.refs_eq e he
    obtain ⟨results, hresults, hcount⟩ := h.misses_eq e he
    have hswept : e.1.1 ∈ CACHE_SIZES :=
      (h.swept _).mp (List.mem_map_of_mem (List.mem_map_of_mem he))
    rw [hkey, hmisses]
    exact ⟨hswept, hrefs.trans happ, results, hresults, hcount⟩

/-- The sweep has more than one size. -/
theorem SweepTable.entries_eq {trace : Trace} {table skeleton_data : Table} {app skeleton : Counts}
    {ret : PyDict ℕ Counts} (h : SweepTable trace table)
    (hret : table.entries.foldlM (size_counts false skeleton_data app skeleton) .empty = .ok ret) :
    ∃ e l, l ≠ [] ∧ ret.sortKeys.entries = e :: l := by
  have hkeys : ret.sortKeys.keys = CACHE_SIZES := by
    apply PyDict.keys_sortKeys_eq (by decide +kernel)
    intro x
    rw [mem_keys_table hret, ← h.swept]
    simp [PyDict.keys]
  have hlength : ret.sortKeys.entries.length = 23 := by
    rw [← List.length_map Prod.fst, ← PyDict.keys, hkeys]
    decide
  rcases hentries : ret.sortKeys.entries with _ | ⟨e, l⟩
  · rw [hentries] at hlength
    cases hlength
  · refine ⟨e, l, ?_, rfl⟩
    rintro rfl
    rw [hentries] at hlength
    cases hlength

/-- Along the sizes of the sweep, the misses fall. -/
theorem SweepTable.falling {trace : Trace} (htrace : ∀ x ∈ trace, AvoidsZero x)
    {ret : PyDict ℕ Counts} (h : ∀ x ∈ ret.entries, x.1 ∈ CACHE_SIZES ∧
      ∃ results, sweep_results trace x.1 = some results ∧ x.2.misses = results.count .Miss) :
    Falling ret.sortKeys.entries := by
  have hsorted := List.pairwise_map.mp ret.pairwise_keys_sortKeys
  refine hsorted.imp_of_mem ?_
  intro e e' he he' hle
  have hmem : ∀ x, x ∈ ret.sortKeys.entries → x ∈ ret.entries :=
    fun x hx => (List.mem_insertionSort _).mp hx
  obtain ⟨hsize, results, hresults, hmisses⟩ := h e (hmem e he)
  obtain ⟨hsize', results', hresults', hmisses'⟩ := h e' (hmem e' he')
  rw [hmisses, hmisses']
  exact_mod_cast sweep_misses_le htrace hsize hsize' hle hresults hresults'

/-- In the sweep, an access that misses in a larger cache misses in every smaller one, and a
panic does not depend on the cache. So the misses do not grow with the size, and the access
counts that follow from them are not negative and add up to the accesses. -/
theorem larger_caches_miss_less (trace : Trace) (htrace : ∀ x ∈ trace, AvoidsZero x) :
    (∀ size ∈ CACHE_SIZES, ∀ size' ∈ CACHE_SIZES, size ≤ size' →
      Option.Rel (List.Forall₂ MissesMore) (sweep_results trace size) (sweep_results trace size') ∧
      ∀ results results', sweep_results trace size = some results →
        sweep_results trace size' = some results' →
          results'.count .Miss ≤ results.count .Miss) ∧
    ∀ table skeleton_data app skeleton ret, SweepTable trace table → mean_refs table = .ok app →
      table.entries.foldlM (size_counts false skeleton_data app skeleton) .empty = .ok ret →
        (∀ x ∈ access_counts ret.sortKeys.entries, 0 ≤ x.2) ∧
          ((access_counts ret.sortKeys.entries).map Prod.snd).sum = trace.length := by
  constructor
  · intro size hsize size' hsize' hle
    exact ⟨sweep_results_rel htrace hsize hsize' hle,
      fun results results' => sweep_misses_le htrace hsize hsize' hle⟩
  · intro table skeleton_data app skeleton ret htable hmean hret
    have hentry := fun x => @SweepTable.entry trace table skeleton_data app skeleton ret htable hmean
      hret x
    have hfalling := SweepTable.falling htrace fun x hx => ⟨(hentry x hx).1, (hentry x hx).2.2⟩
    have hperm : ret.sortKeys.entries.Perm ret.entries := List.perm_insertionSort _ _
    constructor
    · have hbounds : ∀ e ∈ ret.sortKeys.entries, 0 ≤ e.2.misses ∧ e.2.misses ≤ e.2.refs := by
        intro e he
        obtain ⟨-, hrefs, results, hresults, hmisses⟩ := hentry e (hperm.mem_iff.mp he)
        have hlen := length_of_simulate hresults
        have hcount := List.count_le_length (a := .Miss) (l := results)
        omega
      exact access_counts_nonneg (fun e he => (hbounds e (List.mem_of_mem_dropLast he)).1)
        (fun e he => (hbounds e he).2) hfalling
    · obtain ⟨e, l, hl, hentries⟩ := htable.entries_eq hret
      rw [hentries, sum_access_counts e hl]
      have he : e ∈ ret.sortKeys.entries := by simp [hentries]
      exact (hentry e (hperm.mem_iff.mp he)).2.1

/-- Two lines, an access to both of them, and the first line again. -/
def twoLines : Trace := [(4096, 8), (4156, 8), (4096, 8)]

/-- The table of the sweep for these accesses. -/
def twoLinesTable : Table :=
  PyDict.ofList (CACHE_SIZES.map fun size =>
    let misses := ((sweep_results twoLines size).getD []).count .Miss
    ((size, (sweep_config size).assoc), ⟨3, 3, 0, misses, misses, 0⟩))

theorem sweepTable_twoLines : SweepTable twoLines twoLinesTable := by
  refine ⟨?_, by decide +kernel, ?_⟩
  · intro x
    simp only [twoLinesTable, PyDict.mem_keys_ofList, List.mem_map, List.map_map]
    simp
  · have hall : ∀ e ∈ twoLinesTable.entries, (sweep_results twoLines e.1.1).isSome = true ∧
        e.2.misses = ((sweep_results twoLines e.1.1).getD []).count .Miss := by decide +kernel
    intro e he
    obtain ⟨hsome, hmisses⟩ := hall e he
    obtain ⟨results, hresults⟩ := Option.isSome_iff_exists.mp hsome
    rw [hresults] at hmisses
    exact ⟨results, hresults, hmisses⟩

theorem larger_caches_miss_less_on_two_lines :
    sweep_results twoLines 64 = some [.Miss, .Miss, .Miss] ∧
    sweep_results twoLines 128 = some [.Miss, .Miss, .Hit] ∧
    ∃ ret, twoLinesTable.entries.foldlM
        (size_counts false .empty ⟨3, 3, 0, 0, 0, 0⟩ ⟨0, 0, 0, 0, 0, 0⟩) .empty = .ok ret ∧
      ((access_counts ret.sortKeys.entries).map Prod.snd).sum = 3 := by
  refine ⟨by decide +kernel, by decide +kernel, ?_⟩
  have hmean : mean_refs twoLinesTable = .ok ⟨3, 3, 0, 0, 0, 0⟩ := by decide +kernel
  have hok : (twoLinesTable.entries.foldlM (size_counts false .empty ⟨3, 3, 0, 0, 0, 0⟩
      ⟨0, 0, 0, 0, 0, 0⟩) PyDict.empty).toOption.isSome = true := by decide +kernel
  rcases hret : twoLinesTable.entries.foldlM (size_counts false .empty ⟨3, 3, 0, 0, 0, 0⟩
      ⟨0, 0, 0, 0, 0, 0⟩) PyDict.empty with err | ret
  · rw [hret] at hok
    cases hok
  · have htrace : ∀ x ∈ twoLines, AvoidsZero x := by
      simp [twoLines, AvoidsZero]
    have hlaw := larger_caches_miss_less twoLines htrace
    exact ⟨ret, rfl, (hlaw.2 _ _ _ _ _ sweepTable_twoLines hmean hret).2⟩

end ditto.callgrind
