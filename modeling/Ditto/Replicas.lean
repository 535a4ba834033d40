-- The replicas of a block. The guard reads the request id twice: its slot
-- in the iteration chooses the block, and its remainder by the number of
-- replicas chooses the replica. The two are not independent, so a narrow
-- block can have replicas that no request runs.
import Ditto.Dispatch
import Ditto.Lib.Residues

open Cuts

namespace ditto.assembly_generator

/-! ## The calls of one block -/

/-- The range of a call is a piece of the iteration, its replica is one of its block, and
the other replicas of the block have calls with the same values. -/
structure CallOf (calls : List Submission) (pieces : List (ℤ × ℤ × ℕ × ℕ)) (s : Submission) :
    Prop where
  piece : ∃ sizes, (s.reqid_lower_bound, s.reqid_upper_bound, sizes) ∈ pieces
  replica : s.replica_id < s.num_block_replicas
  siblings : ∀ j < s.num_block_replicas, { s with replica_id := j } ∈ calls

theorem CallOf.mono {calls calls' : List Submission} {pieces pieces' : List (ℤ × ℤ × ℕ × ℕ)}
    {s : Submission} (h : CallOf calls pieces s) (hc : ∀ c ∈ calls, c ∈ calls')
    (hp : ∀ p ∈ pieces, p ∈ pieces') : CallOf calls' pieces' s where
  piece := h.piece.imp fun _ hmem => hp _ hmem
  replica := h.replica
  siblings j hj := hc _ (h.siblings j hj)

theorem callOf_submit_row {f b : ℕ} {lower : ℤ} {row : Row} {s : Submission}
    (hs : s ∈ submit_row f b lower row) :
    CallOf (submit_row f b lower row) [(lower, row.entry)] s := by
  obtain ⟨replica_id, hrep, rfl⟩ := List.mem_map.mp hs
  refine ⟨⟨_, List.mem_singleton.mpr rfl⟩, List.mem_range.mp hrep, ?_⟩
  intro j hj
  exact List.mem_map.mpr ⟨j, List.mem_range.mpr hj, rfl⟩

theorem callOf_submit_blocks {f b : ℕ} {lower : ℤ} {rows : List Row} {s : Submission}
    (hs : s ∈ submit_blocks f b lower rows) :
    CallOf (submit_blocks f b lower rows) (blocks lower (rows.map Row.entry)) s := by
  induction rows generalizing b lower with
  | nil => cases hs
  | cons row rest ih =>
    rw [submit_blocks, List.mem_append] at hs
    rcases hs with hs | hs
    · apply (callOf_submit_row hs).mono
      · intro c hc
        exact List.mem_append_left _ hc
      · intro p hp
        rw [List.mem_singleton] at hp
        rw [hp]
        exact List.mem_cons_self
    · apply (ih hs).mono
      · intro c hc
        exact List.mem_append_right _ hc
      · intro p hp
        exact List.mem_cons_of_mem _ hp

/-! ## The requests of a replica -/

/-- Every replica of a block with a non-empty range has a request that runs it. -/
def EveryReplicaRuns (N : ℕ) (calls : List Submission) : Prop :=
  ∀ s ∈ calls, s.reqid_lower_bound < s.reqid_upper_bound →
    ∃ req_id : BitVec 64, guard N s req_id.toNat = true

/-- A slot of the block agrees with the replica, and the first request with this slot and
this replica fits in 64 bits. -/
def Reachable (N : ℕ) (s : Submission) : Prop :=
  ∃ r : ℕ, s.reqid_lower_bound ≤ r ∧ (r : ℤ) < s.reqid_upper_bound ∧
    ∃ h : r ≡ s.replica_id [MOD N.gcd s.num_block_replicas],
      (Nat.chineseRemainder' h : ℕ) < 2 ^ 64

theorem guard_two_pow (k req_id : ℕ) (s : Submission) :
    guard (2 ^ k) s req_id = true ↔ s.reqid_lower_bound ≤ (req_id % 2 ^ k : ℕ) ∧
      ((req_id % 2 ^ k : ℕ) : ℤ) < s.reqid_upper_bound ∧
      req_id % s.num_block_replicas = s.replica_id := by
  rw [guard_eq_true, slotOf_two_pow]

theorem exists_request_iff_reachable {k : ℕ} {s : Submission} (hup : s.reqid_upper_bound ≤ 2 ^ k)
    (hrep : s.replica_id < s.num_block_replicas) :
    (∃ req_id : BitVec 64, guard (2 ^ k) s req_id.toNat = true) ↔ Reachable (2 ^ k) s := by
  have hslot : ∀ r : ℕ, (r : ℤ) < s.reqid_upper_bound → r < 2 ^ k := by
    intro r hr
    exact_mod_cast lt_of_lt_of_le hr hup
  have hN : 0 < 2 ^ k := Nat.two_pow_pos k
  constructor
  · rintro ⟨req_id, hguard⟩
    obtain ⟨hlow, hhigh, hmod⟩ := (guard_two_pow k _ s).mp hguard
    refine ⟨_, hlow, hhigh, ?_⟩
    exact (Residues.exists_lt_iff hN (by omega) (Nat.mod_lt _ hN) hrep).mp
      ⟨req_id.toNat, req_id.isLt, rfl, hmod⟩
  · rintro ⟨r, hlow, hhigh, hcr⟩
    obtain ⟨x, hx, rfl, hmod⟩ :=
      (Residues.exists_lt_iff hN (by omega) (hslot r hhigh) hrep).mpr hcr
    refine ⟨BitVec.ofNat 64 x, ?_⟩
    rw [BitVec.toNat_ofNat, Nat.mod_eq_of_lt hx, guard_two_pow]
    exact ⟨hlow, hhigh, hmod⟩

/-- When the two moduli repeat within 64 bits, only the remainders matter. -/
theorem reachable_iff_of_lcm_le {N : ℕ} {s : Submission} (hN : 0 < N)
    (hrep : s.replica_id < s.num_block_replicas)
    (hlcm : N.lcm s.num_block_replicas ≤ 2 ^ 64) :
    Reachable N s ↔ ∃ r : ℕ, s.reqid_lower_bound ≤ r ∧ (r : ℤ) < s.reqid_upper_bound ∧
      r ≡ s.replica_id [MOD N.gcd s.num_block_replicas] := by
  constructor
  · rintro ⟨r, hlow, hhigh, h, _⟩
    exact ⟨r, hlow, hhigh, h⟩
  · rintro ⟨r, hlow, hhigh, h⟩
    refine ⟨r, hlow, hhigh, h, ?_⟩
    exact lt_of_lt_of_le (Nat.chineseRemainder'_lt_lcm h (by omega) (by omega)) hlcm

/-! ## The stats behind a merge -/

/-- The merge asks for a data range and an instruction range at once, so it ends with an
index error when either of the stats is empty. -/
theorem weighted_of_merged {N : ℤ} {dcache_stats icache_stats : PyDict ℕ ℚ}
    {merged : PyDict ℤ (ℕ × ℕ)} (hN : 0 < N) (hd : ∀ e ∈ dcache_stats.entries, (0 : ℚ) ≤ e.2)
    (hi : ∀ e ∈ icache_stats.entries, (0 : ℚ) ≤ e.2)
    (hok : dcache_icache_req_range N dcache_stats icache_stats = .ok merged) :
    Weighted dcache_stats ∧ Weighted icache_stats := by
  unfold dcache_icache_req_range at hok
  rw [merge_loop, if_pos hN] at hok
  refine ⟨⟨?_, hd⟩, ⟨?_, hi⟩⟩
  · intro hnil
    have hrange : (dcache_req_range N dcache_stats).entries = [] := by
      rw [dcache_req_range, hnil]
      rfl
    simp [hrange] at hok
  · intro hnil
    have hrange : (icache_req_range N (dcache_req_range N dcache_stats) icache_stats).entries = [] := by
      rw [icache_req_range, hnil]
      rfl
    simp [hrange] at hok

/-- The bounds of every call lie in the iteration. -/
theorem bounds_of_call {k f : ℕ} {dcache_stats icache_stats : PyDict ℕ ℚ}
    {merged : PyDict ℤ (ℕ × ℕ)} {rows : List Row} {s : Submission}
    (hd : ∀ e ∈ dcache_stats.entries, (0 : ℚ) ≤ e.2)
    (hi : ∀ e ∈ icache_stats.entries, (0 : ℚ) ≤ e.2)
    (hok : dcache_icache_req_range (2 ^ k) dcache_stats icache_stats = .ok merged)
    (hrows : rows.map Row.entry = merged.entries) (hs : s ∈ submit_blocks f 0 0 rows) :
    0 ≤ s.reqid_lower_bound ∧ s.reqid_upper_bound ≤ 2 ^ k := by
  have hN : (0 : ℤ) < 2 ^ k := by positivity
  obtain ⟨hwd, hwi⟩ := weighted_of_merged hN hd hi hok
  obtain ⟨m, hok', htiles, _⟩ := dcache_icache_req_range_spec hN hwd hwi
  rw [hok] at hok'
  cases hok'
  obtain ⟨sizes, hmem⟩ := (callOf_submit_blocks hs).piece
  rw [hrows] at hmem
  exact ⟨htiles.le_of_mem_blocks (le_refl 0) hmem, htiles.le_of_mem_blocks_end hmem⟩

/-! ## The laws -/

/-- One request of 1024 has a data size of its own. -/
def narrowData : PyDict ℕ ℚ := ⟨[(64, 1 / 1024), (128, 1023 / 1024)], by decide⟩

/-- One instruction size with four replicas, which the two blocks share. -/
def oneSize : PyDict ℕ ℚ := ⟨[(8192, 1)], by decide⟩

def fourReplicas : PyDict ℕ ℤ := ⟨[(8192, 4)], by decide⟩

def narrowMerged : PyDict ℤ (ℕ × ℕ) := ⟨[(1, 64, 8192), (1024, 128, 8192)], by decide⟩

def narrowRows : List Row := [⟨1, 64, 8192, 2048, 2⟩, ⟨1024, 128, 8192, 2048, 2⟩]

theorem narrowMerged_ok : dcache_icache_req_range (2 ^ 10) narrowData oneSize = .ok narrowMerged := by
  decide +kernel

theorem narrowRows_ok : plan_rows 4096 fourReplicas narrowMerged = .ok narrowRows := by
  decide +kernel

def onceRows : List Row := [⟨1, 64, 8192, 2048, 1⟩, ⟨1024, 128, 8192, 2048, 1⟩]

end ditto.assembly_generator
