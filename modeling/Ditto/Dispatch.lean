-- The blocks that `generate_asm` submits for one function, and the guard
-- of each block. The guards of all replicas split the requests: every
-- request runs one replica of one block.
import Ditto.RequestRanges
import Mathlib.Data.Nat.Bitwise
import Mathlib.Data.BitVec

open Cuts

namespace ditto.assembly_generator

/-! ## The submission loop -/

def mean_inst_size : ℕ := 4

/-- One range of the merge, with the static instructions and the replicas of its block. -/
structure Row where
  reqid_upper_bound : ℤ
  dcache_size : ℕ
  icache_size : ℕ
  num_static_insts : ℤ
  final_num_block_replicas : ℕ
  deriving DecidableEq, Repr

def Row.entry (row : Row) : ℤ × ℕ × ℕ := (row.reqid_upper_bound, row.dcache_size, row.icache_size)

/-- The replicas of each instruction size, 1 when none is given. -/
def default_replicas (merged : PyDict ℤ (ℕ × ℕ)) (num_block_replicas : PyDict ℕ ℤ) :
    PyDict ℕ ℤ :=
  merged.entries.foldl
    (fun reps e => if e.2.2 ∈ reps.keys then reps else reps.set e.2.2 1) num_block_replicas

/-- The static instructions and the replicas of one block. -/
def plan_row (num_dynamic_insts : ℤ) (num_block_replicas : PyDict ℕ ℤ)
    (merged : PyDict ℤ (ℕ × ℕ)) (e : ℤ × ℕ × ℕ) : Except PyError Row :=
  let num_static_insts : ℕ := e.2.2 / mean_inst_size
  let icache_replicas := merged.values.countP (fun v => v.2 = e.2.2)
  match num_block_replicas.get? e.2.2 with
  | none => .error .keyError
  | some reps =>
    if num_dynamic_insts < num_static_insts then
      if num_dynamic_insts = 0 then .error .zeroDivisionError
      else .ok ⟨e.1, e.2.1, e.2.2, num_dynamic_insts,
        (max 1 (truncate ((num_static_insts : ℚ) / num_dynamic_insts * reps / icache_replicas))).toNat⟩
    else .ok ⟨e.1, e.2.1, e.2.2, num_static_insts,
      (max 1 (truncate ((reps : ℚ) / icache_replicas))).toNat⟩

def plan_rows (num_dynamic_insts : ℤ) (num_block_replicas : PyDict ℕ ℤ)
    (merged : PyDict ℤ (ℕ × ℕ)) : Except PyError (List Row) :=
  merged.entries.mapM
    (plan_row num_dynamic_insts (default_replicas merged num_block_replicas) merged)

/-- The arguments of one call of `generate_asm_block`. -/
structure Submission where
  function_id : ℕ
  block_id : ℕ
  replica_id : ℕ
  mem_size : ℕ
  num_static_insts : ℤ
  num_block_replicas : ℕ
  reqid_lower_bound : ℤ
  reqid_upper_bound : ℤ
  deriving DecidableEq, Repr

def submit_row (function_id block_id : ℕ) (reqid_lower_bound : ℤ) (row : Row) : List Submission :=
  (List.range row.final_num_block_replicas).map (fun replica_id =>
    ⟨function_id, block_id, replica_id, row.dcache_size, row.num_static_insts,
      row.final_num_block_replicas, reqid_lower_bound, row.reqid_upper_bound⟩)

/-- The calls for the blocks of one function, from `block_id` and the lower bound on. -/
def submit_blocks (function_id : ℕ) : ℕ → ℤ → List Row → List Submission
  | _, _, [] => []
  | block_id, reqid_lower_bound, row :: rest =>
    submit_row function_id block_id reqid_lower_bound row ++
      submit_blocks function_id (block_id + 1) row.reqid_upper_bound rest

/-- The `if` that opens the block in the generated function. -/
def guard (num_reqs_per_iteration : ℕ) (s : Submission) (req_id : ℕ) : Bool :=
  decide (s.reqid_lower_bound ≤ (req_id &&& (num_reqs_per_iteration - 1) : ℕ)) &&
  decide (((req_id &&& (num_reqs_per_iteration - 1) : ℕ) : ℤ) < s.reqid_upper_bound) &&
  decide (req_id % s.num_block_replicas = s.replica_id)

/-! ## The plan -/

/-- Every block of the plan has a replica, and the plan keeps the ranges of the merge. -/
theorem plan_row_spec {d : ℤ} {reps : PyDict ℕ ℤ} {merged : PyDict ℤ (ℕ × ℕ)} {e : ℤ × ℕ × ℕ}
    {row : Row} (h : plan_row d reps merged e = .ok row) :
    row.entry = e ∧ 0 < row.final_num_block_replicas := by
  unfold plan_row at h
  simp only at h
  split at h
  · cases h
  · split at h
    · split at h
      · cases h
      · cases h
        refine ⟨rfl, ?_⟩
        simp only
        omega
    · cases h
      refine ⟨rfl, ?_⟩
      simp only
      omega

theorem plan_rows_spec {d : ℤ} {reps : PyDict ℕ ℤ} {merged : PyDict ℤ (ℕ × ℕ)} {rows : List Row}
    (h : plan_rows d reps merged = .ok rows) :
    rows.map Row.entry = merged.entries ∧ ∀ row ∈ rows, 0 < row.final_num_block_replicas := by
  have hall := PyError.forall₂_of_mapM h
  refine ⟨?_, ?_⟩
  · have heq : List.Forall₂ (fun e e' => e = e') merged.entries (rows.map Row.entry) :=
      List.forall₂_map_right_iff.mpr (hall.imp fun _ _ hrow => (plan_row_spec hrow).1.symm)
    rw [List.forall₂_eq_eq_eq] at heq
    exact heq.symm
  · intro row hrow
    obtain ⟨e, _, he⟩ := exists_of_forall₂ hall hrow
    exact (plan_row_spec he).2

/-! ## The guards -/

/-- The request number within one iteration. -/
def slotOf (N req_id : ℕ) : ℤ := (req_id &&& (N - 1) : ℕ)

theorem slotOf_two_pow (k req_id : ℕ) : slotOf (2 ^ k) req_id = (req_id % 2 ^ k : ℕ) := by
  unfold slotOf
  rw [Nat.and_two_pow_sub_one_eq_mod]

theorem guard_eq_true (N req_id : ℕ) (s : Submission) :
    guard N s req_id = true ↔ s.reqid_lower_bound ≤ slotOf N req_id ∧
      slotOf N req_id < s.reqid_upper_bound ∧ req_id % s.num_block_replicas = s.replica_id := by
  simp [guard, slotOf, and_assoc]

/-- Of the replicas of one block, the guard takes one for a request in the range of the
block, and none for any other request. -/
theorem countP_submit_row (N f b req_id : ℕ) (lower : ℤ) (row : Row)
    (hpos : 0 < row.final_num_block_replicas) :
    (submit_row f b lower row).countP (fun s => guard N s req_id) =
      if inBlock (slotOf N req_id) (lower, row.entry) then 1 else 0 := by
  unfold submit_row
  rw [List.countP_map]
  have hcongr : ((fun s => guard N s req_id) ∘ fun replica_id =>
      (⟨f, b, replica_id, row.dcache_size, row.num_static_insts, row.final_num_block_replicas, lower,
        row.reqid_upper_bound⟩ : Submission)) =
      fun replica_id => inBlock (slotOf N req_id) (lower, row.entry) &&
        (replica_id == req_id % row.final_num_block_replicas) := by
    funext replica_id
    rw [Bool.eq_iff_iff]
    simp only [Function.comp_apply, guard_eq_true, inBlock_eq_true, Row.entry, Bool.and_eq_true,
      beq_iff_eq]
    constructor
    · rintro ⟨h1, h2, h3⟩
      exact ⟨⟨h1, h2⟩, h3.symm⟩
    · rintro ⟨⟨h1, h2⟩, h3⟩
      exact ⟨h1, h2, h3.symm⟩
  rw [hcongr]
  cases inBlock (slotOf N req_id) (lower, row.entry) with
  | false => simp
  | true =>
    simp only [Bool.true_and, if_true]
    apply List.count_eq_one_of_mem List.nodup_range
    exact List.mem_range.mpr (Nat.mod_lt _ hpos)

/-- The guard takes as many replicas as there are blocks with the request in their range. -/
theorem countP_submit_blocks (N f req_id : ℕ) (rows : List Row) (b : ℕ) (lower : ℤ)
    (hpos : ∀ row ∈ rows, 0 < row.final_num_block_replicas) :
    (submit_blocks f b lower rows).countP (fun s => guard N s req_id) =
      (blocks lower (rows.map Row.entry)).countP (inBlock (slotOf N req_id)) := by
  induction rows generalizing b lower with
  | nil => rfl
  | cons row rest ih =>
    have hrow := countP_submit_row N f b req_id lower row (hpos row List.mem_cons_self)
    have hrest := ih (b + 1) row.reqid_upper_bound (fun r hr => hpos r (List.mem_cons_of_mem _ hr))
    rw [submit_blocks, List.countP_append, hrow, hrest, List.map_cons]
    unfold Row.entry
    rw [blocks, List.countP_cons, Nat.add_comm]

/-- A call whose guard holds comes from a block of the merge with the same data size. -/
theorem exists_block_of_submission {N f b req_id : ℕ} {lower : ℤ} {rows : List Row} {s : Submission}
    (hs : s ∈ submit_blocks f b lower rows) (hg : guard N s req_id = true) :
    ∃ t ∈ blocks lower (rows.map Row.entry), inBlock (slotOf N req_id) t = true ∧
      t.2.2.1 = s.mem_size := by
  induction rows generalizing b lower with
  | nil => simp [submit_blocks] at hs
  | cons row rest ih =>
    rw [submit_blocks, List.mem_append] at hs
    rw [List.map_cons]
    rcases hs with hs | hs
    · obtain ⟨replica_id, _, rfl⟩ := List.mem_map.mp hs
      obtain ⟨h1, h2, _⟩ := (guard_eq_true N req_id _).mp hg
      refine ⟨(lower, row.entry), List.mem_cons_self, ?_, rfl⟩
      exact (inBlock_eq_true _ _).mpr ⟨h1, h2⟩
    · obtain ⟨t, ht, hin, hsize⟩ := ih hs
      exact ⟨t, List.mem_cons_of_mem _ ht, hin, hsize⟩

theorem exists_unique_of_countP {α β : Type} {l : List α} {p : α → Bool} (f : α → β)
    (h : l.countP p = 1) : ∃! y, ∃ x ∈ l, f x = y ∧ p x = true := by
  rw [List.countP_eq_length_filter, List.length_eq_one_iff] at h
  obtain ⟨a, ha⟩ := h
  have hmem : ∀ x, x ∈ l ∧ p x = true ↔ x = a := by
    intro x
    rw [← List.mem_filter, ha, List.mem_singleton]
  obtain ⟨hal, hap⟩ := (hmem a).mpr rfl
  refine ⟨f a, ⟨a, hal, rfl, hap⟩, ?_⟩
  rintro y ⟨x, hx, rfl, hpx⟩
  rw [(hmem x).mp ⟨hx, hpx⟩]

/-- The slot of a request is a request number of the iteration. -/
theorem slotOf_mem (k req_id : ℕ) : 0 ≤ slotOf (2 ^ k) req_id ∧ slotOf (2 ^ k) req_id < 2 ^ k := by
  rw [slotOf_two_pow]
  have := Nat.mod_lt req_id (Nat.two_pow_pos k)
  refine ⟨by omega, ?_⟩
  exact_mod_cast this

/-! ## The laws -/

/-- The ranges are built and merged without an index error. Then, whatever the replicas of
each block, every request satisfies the guard of exactly one replica of one block. -/
theorem every_request_runs_exactly_one_replica (dcache_stats icache_stats : PyDict ℕ ℚ) (k f : ℕ)
    (hd : Weighted dcache_stats) (hi : Weighted icache_stats) :
    ∃ merged, dcache_icache_req_range (2 ^ k) dcache_stats icache_stats = .ok merged ∧
      ∀ rows : List Row, rows.map Row.entry = merged.entries →
        (∀ row ∈ rows, 0 < row.final_num_block_replicas) → ∀ req_id : BitVec 64,
          ∃! p : ℕ × ℕ, ∃ s ∈ submit_blocks f 0 0 rows,
            (s.block_id, s.replica_id) = p ∧ guard (2 ^ k) s req_id.toNat = true := by
  obtain ⟨merged, hok, htiles, _⟩ := dcache_icache_req_range_spec (N := 2 ^ k) (by positivity) hd hi
  refine ⟨merged, hok, ?_⟩
  intro rows hrows hpos req_id
  obtain ⟨hlow, hhigh⟩ := slotOf_mem k req_id.toNat
  apply exists_unique_of_countP (fun s : Submission => (s.block_id, s.replica_id))
  rw [countP_submit_blocks _ _ _ _ _ _ hpos, hrows]
  exact htiles.countP_blocks (le_refl 0) hlow hhigh

/-- The law on two data sizes and the instruction sizes of memcached. -/
theorem every_request_runs_exactly_one_replica_of_two_sizes :
    ∃ merged, dcache_icache_req_range (2 ^ 10) ⟨[(64, 1 / 4), (128, 3 / 4)], by decide⟩
        ⟨[(8192, 1 / 2), (16384, 1 / 2)], by decide⟩ = .ok merged ∧
      ∀ rows : List Row, rows.map Row.entry = merged.entries →
        (∀ row ∈ rows, 0 < row.final_num_block_replicas) → ∀ req_id : BitVec 64,
          ∃! p : ℕ × ℕ, ∃ s ∈ submit_blocks 0 0 0 rows,
            (s.block_id, s.replica_id) = p ∧ guard (2 ^ 10) s req_id.toNat = true :=
  every_request_runs_exactly_one_replica _ _ 10 0 ⟨by decide, by decide +kernel⟩
    ⟨by decide, by decide +kernel⟩

end ditto.assembly_generator
