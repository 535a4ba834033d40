-- The distances from the end of a block back to the last access of a
-- register. The analyzer walks back over the blocks, and keeps what it finds
-- in a table for each block, register and kind of access.
import Ditto.Lib.Mass
import Mathlib.Algebra.BigOperators.Ring.List
import Mathlib.Algebra.Order.Field.Rat
import Mathlib.Tactic.FieldSimp
import Mathlib.Tactic.Linarith
import Mathlib.Tactic.Positivity

namespace ditto.data_dependency_analyzer

/-! ## The analyzer -/

def MAX_INT : ℤ := 2 ^ 32

/-- The names of the general-purpose registers. -/
inductive GpReg
  | a | b | c | d | sp | bp | si | di | r8 | r9 | r10 | r11 | r12 | r13 | r14 | r15
deriving DecidableEq

def GP_REG_NAMES : List GpReg :=
  [.a, .b, .c, .d, .sp, .bp, .si, .di, .r8, .r9, .r10, .r11, .r12, .r13, .r14, .r15]

inductive RW
  | rd | wr
deriving DecidableEq

/-- A register and a kind of access. -/
structure Slot where
  reg : GpReg
  rw : RW
deriving DecidableEq

/-- The control-flow graph that the analyzer walks. The backward probabilities are a
distribution over the predecessors of each node that has one. -/
structure Cfg where
  nodes : List ℕ
  predecessors : ℕ → List ℕ
  backward_prob : ℕ → ℕ → ℚ
  nodup_nodes : nodes.Nodup
  nodup_predecessors : ∀ b, (predecessors b).Nodup
  closed : ∀ b, ∀ p ∈ predecessors b, b ∈ nodes ∧ p ∈ nodes
  nonneg : ∀ b, ∀ p ∈ predecessors b, 0 ≤ backward_prob p b
  sum_one : ∀ b, predecessors b ≠ [] →
    ((predecessors b).map fun p => backward_prob p b).sum = 1

/-- What the walk reads: the graph, the instructions of each block, and the indices of the
instructions of a block that access a register, in order. -/
structure Analyzer where
  cfg : Cfg
  insts : ℕ → ℤ
  reg_insts : ℕ → Slot → List ℕ
  max_bb_depth : ℤ
  blocks : ∀ b slot, reg_insts b slot ≠ [] → b ∈ cfg.nodes

/-- A distance, or `MAX_INT` for none, with its probability. -/
abbrev Table := PyDict ℤ ℚ

/-- The tables `bb_reg_distances`. -/
abbrev Tables := ℕ × Slot → Table

/-! ## The walk -/

/-- The set of the keys has no order in the source. Here the keys of `dist0` go first. -/
def merge_distribution (dist0 dist1 : Table) : Table :=
  (dist0.keys ++ dist1.keys.filter (· ∉ dist0.keys)).foldl (fun ret k =>
    match dist0.get? k, dist1.get? k with
    | some x, some y => ret.set k (x + y)
    | some x, none => ret.set k x
    | none, some y => ret.set k y
    | none, none => ret) .empty

/-- A stored table as the walk sees it, `dist` instructions behind. -/
def shift (t : Table) (prob : ℚ) (dist : ℤ) : Table where
  entries := t.entries.map fun e => (e.1 + dist, e.2 * prob)
  nodup := by
    have hinj : Function.Injective fun k : ℤ => k + dist := add_left_injective dist
    have := t.nodup.map hinj
    rw [List.map_map] at this ⊢
    exact this

/-- The writes to the table of a block at the end of its turn. A key that an inner turn left
stays. -/
def write_back (distances : Table) (prob : ℚ) (dist : ℤ) (table : Table) : Table :=
  distances.entries.foldl (fun table e =>
    if 0 < e.2 ∧ 0 < prob then table.set (e.1 - dist) (e.2 / prob) else table) table

/-- The walk back from a block. `left` is what is left of the depth: the source stops when
`depth` passes `max_bb_depth`, and here `left` is then 0. -/
def helper (an : Analyzer) (slot : Slot) : ℕ → Tables → ℕ → ℚ → ℤ → Table × Tables
  | 0, T, _, prob, _ => (.single MAX_INT prob, T)
  | left + 1, T, bb, prob, dist =>
    if (T (bb, slot)).entries ≠ [] then (shift (T (bb, slot)) prob dist, T)
    else
      match (an.reg_insts bb slot).getLast? with
      | some last =>
        (.single (an.insts bb - last + dist) prob,
          Function.update T (bb, slot) (.single (an.insts bb - last) 1))
      | none =>
        let r := (an.cfg.predecessors bb).foldl (fun (acc : Table × Tables) parent =>
          let curr := helper an slot left acc.2 parent
            (prob * an.cfg.backward_prob parent bb) (dist + an.insts bb)
          (merge_distribution acc.1 curr.1, curr.2)) (.empty, T)
        if r.1.entries = [] then (.single MAX_INT prob, r.2)
        else (r.1, Function.update r.2 (bb, slot) (write_back r.1 prob dist (r.2 (bb, slot))))

/-- The slots in the order of the source: each register with its reads and its writes. -/
def slots : List Slot := GP_REG_NAMES.flatMap fun reg => [⟨reg, .rd⟩, ⟨reg, .wr⟩]

/-- The walk from a block at depth 0, and the write of what it returns. -/
def visit (an : Analyzer) (T : Tables) (key : ℕ × Slot) : Tables :=
  let r := helper an key.2 (an.max_bb_depth + 1).toNat T key.1 1 0
  Function.update r.2 key r.1

def basic_block_reg_dep_distances (an : Analyzer) : Tables :=
  (an.cfg.nodes.flatMap fun bb => slots.map fun slot => (bb, slot)).foldl (visit an)
    (fun _ => .empty)

/-! ## What the operations on tables do to the weights -/

/-- The keys that `merge_distribution` goes over are the keys of the two tables. -/
theorem mem_merge_keys (t₀ t₁ : Table) (k : ℤ) :
    k ∈ t₀.keys ++ t₁.keys.filter (· ∉ t₀.keys) ↔ k ∈ t₀.keys ∨ k ∈ t₁.keys := by
  rw [List.mem_append, List.mem_filter, decide_eq_true_eq]
  tauto

theorem merge_eq_foldl (t₀ t₁ : Table) :
    merge_distribution t₀ t₁ = (t₀.keys ++ t₁.keys.filter (· ∉ t₀.keys)).foldl
      (fun ret k => ret.set k (t₀.val k + t₁.val k)) .empty := by
  unfold merge_distribution
  apply List.foldl_ext
  intro ret k hk
  rw [mem_merge_keys] at hk
  unfold PyDict.val
  rcases h₀ : t₀.get? k with _ | x
  · rcases h₁ : t₁.get? k with _ | y
    · rw [PyDict.get?_eq_none_iff] at h₀ h₁
      tauto
    · simp
  · rcases h₁ : t₁.get? k with _ | y
    · simp
    · simp

theorem mem_keys_merge (t₀ t₁ : Table) (k : ℤ) :
    k ∈ (merge_distribution t₀ t₁).keys ↔ k ∈ t₀.keys ∨ k ∈ t₁.keys := by
  rw [merge_eq_foldl, PyDict.mem_keys_foldl_set, mem_merge_keys]
  simp

theorem val_merge (t₀ t₁ : Table) (k : ℤ) :
    (merge_distribution t₀ t₁).val k = t₀.val k + t₁.val k := by
  rw [merge_eq_foldl, PyDict.val_foldl_set]
  split
  · rfl
  · rename_i hk
    rw [mem_merge_keys, not_or] at hk
    rw [PyDict.val_of_not_mem hk.1, PyDict.val_of_not_mem hk.2, PyDict.val_empty, add_zero]

theorem total_merge (t₀ t₁ : Table) :
    (merge_distribution t₀ t₁).total = t₀.total + t₁.total :=
  PyDict.total_add (val_merge t₀ t₁)

theorem mem_keys_shift (t : Table) (prob : ℚ) (dist k : ℤ) :
    k ∈ (shift t prob dist).keys ↔ k - dist ∈ t.keys := by
  unfold shift PyDict.keys
  rw [List.map_map]
  constructor
  · intro h
    obtain ⟨e, he, rfl⟩ := List.mem_map.mp h
    apply List.mem_map.mpr
    exact ⟨e, he, by simp⟩
  · intro h
    obtain ⟨e, he, hk⟩ := List.mem_map.mp h
    apply List.mem_map.mpr
    exact ⟨e, he, by simp [hk]⟩

theorem val_shift (t : Table) (prob : ℚ) (dist k : ℤ) :
    (shift t prob dist).val k = t.val (k - dist) * prob := by
  by_cases hk : k - dist ∈ t.keys
  · obtain ⟨e, he, hek⟩ := List.mem_map.mp hk
    have hmem : (k, e.2 * prob) ∈ (shift t prob dist).entries := by
      apply List.mem_map.mpr
      exact ⟨e, he, by simp [hek]⟩
    rw [PyDict.val_of_mem hmem, ← hek, PyDict.val_of_mem (v := e.2) he]
  · rw [PyDict.val_of_not_mem hk, zero_mul]
    apply PyDict.val_of_not_mem
    rwa [mem_keys_shift]

theorem total_shift (t : Table) (prob : ℚ) (dist : ℤ) :
    (shift t prob dist).total = t.total * prob := by
  unfold PyDict.total PyDict.values shift
  rw [List.map_map]
  exact List.sum_map_mul_right t.entries Prod.snd prob

variable {prob : ℚ}

theorem write_back_eq_foldl {distances : Table} (dist : ℤ) (table : Table) (hp : 0 < prob) :
    write_back distances prob dist table =
      ((distances.entries.filter fun e => 0 < e.2).map fun e => e.1 - dist).foldl
        (fun t k => t.set k (distances.val (k + dist) / prob)) table := by
  unfold write_back
  rw [List.foldl_map, List.foldl_filter]
  apply List.foldl_ext
  intro t e he
  rw [sub_add_cancel, PyDict.val_of_mem (v := e.2) he]
  simp [hp]

/-- A turn with a positive probability writes each positive weight, and leaves the others. -/
theorem val_write_back {distances : Table} (dist : ℤ) (table : Table) (hp : 0 < prob) (k : ℤ) :
    (write_back distances prob dist table).val k =
      if 0 < distances.val (k + dist) then distances.val (k + dist) / prob else table.val k := by
  rw [write_back_eq_foldl dist table hp, PyDict.val_foldl_set]
  congr 1
  rw [eq_iff_iff, List.mem_map]
  constructor
  · rintro ⟨e, he, rfl⟩
    rw [List.mem_filter, decide_eq_true_eq] at he
    rw [sub_add_cancel, PyDict.val_of_mem (v := e.2) he.1]
    exact he.2
  · intro hv
    have hk : k + dist ∈ distances.keys := by
      by_contra hk
      rw [PyDict.val_of_not_mem hk] at hv
      exact lt_irrefl _ hv
    obtain ⟨e, he, hek⟩ := List.mem_map.mp hk
    rw [← hek, PyDict.val_of_mem (v := e.2) he] at hv
    exact ⟨e, by simp [he, hv], by rw [hek, add_sub_cancel_right]⟩

theorem write_back_of_not_pos {distances : Table} (dist : ℤ) (table : Table) (hp : ¬ 0 < prob) :
    write_back distances prob dist table = table := by
  unfold write_back
  simp only [hp, and_false, ↓reduceIte]
  induction distances.entries with
  | nil => rfl
  | cons e rest ih => rw [List.foldl_cons, ih]

/-! ## The turns of the walk -/

/-- A block without an access of the slot. -/
def Silent (an : Analyzer) (slot : Slot) (bb : ℕ) : Prop := an.reg_insts bb slot = []

/-- The loop over the predecessors of a block: it starts with the distances `D` and the
tables `T`, and each turn `C` gives the distances of one predecessor. -/
inductive Turns (an : Analyzer) (C : Tables → ℕ → ℚ → ℤ → Table → Tables → Prop) (bb : ℕ)
    (prob : ℚ) (dist : ℤ) : List ℕ → Table → Tables → Table → Tables → Prop
  | nil (D : Table) (T : Tables) : Turns an C bb prob dist [] D T D T
  | cons {parent : ℕ} {rest : List ℕ} {D curr D' : Table} {T T₁ T' : Tables}
      (turn : C T parent (prob * an.cfg.backward_prob parent bb) (dist + an.insts bb) curr T₁)
      (more : Turns an C bb prob dist rest (merge_distribution D curr) T₁ D' T') :
      Turns an C bb prob dist (parent :: rest) D T D' T'

variable {an : Analyzer} {C : Tables → ℕ → ℚ → ℤ → Table → Tables → Prop} {bb : ℕ}
  {parents : List ℕ} {D D' : Table} {T' : Tables}

theorem Turns.mono {C' : Tables → ℕ → ℚ → ℤ → Table → Tables → Prop} {dist : ℤ} {T : Tables}
    (h : Turns an C bb prob dist parents D T D' T')
    (hC : ∀ T p q d D T', C T p q d D T' → C' T p q d D T') :
    Turns an C' bb prob dist parents D T D' T' := by
  induction h with
  | nil D T => exact .nil D T
  | cons turn _ ih => exact .cons (hC _ _ _ _ _ _ turn) ih

theorem turns_foldl (an : Analyzer) (f : Tables → ℕ → ℚ → ℤ → Table × Tables) (bb : ℕ) (prob : ℚ)
    (dist : ℤ) (parents : List ℕ) (D : Table) (T : Tables) :
    let r := parents.foldl (fun (acc : Table × Tables) parent =>
      let curr := f acc.2 parent (prob * an.cfg.backward_prob parent bb) (dist + an.insts bb)
      (merge_distribution acc.1 curr.1, curr.2)) (D, T)
    Turns an (fun T p q d D T' => f T p q d = (D, T')) bb prob dist parents D T r.1 r.2 := by
  induction parents generalizing D T with
  | nil => exact .nil D T
  | cons parent rest ih => exact .cons rfl (ih _ _)

/-- The loop ends with a distance when each turn gives one. -/
theorem Turns.ne_nil {dist : ℤ} {T : Tables} (h : Turns an C bb prob dist parents D T D' T')
    (hC : ∀ T p q d D T', C T p q d D T' → D.entries ≠ []) (hne : D.entries ≠ [] ∨ parents ≠ []) :
    D'.entries ≠ [] := by
  induction h with
  | nil D T => exact hne.resolve_right (by simp)
  | @cons parent rest D curr D' T T₁ T' turn _ ih =>
    apply ih
    left
    obtain ⟨e, he⟩ := List.exists_mem_of_ne_nil _ (hC _ _ _ _ _ _ turn)
    have hk : e.1 ∈ (merge_distribution D curr).keys :=
      (mem_keys_merge _ _ _).mpr (Or.inr (List.mem_map_of_mem he))
    intro hnil
    unfold PyDict.keys at hk
    rw [hnil] at hk
    cases hk

theorem helper_ne_nil (an : Analyzer) (slot : Slot) (left : ℕ) (T : Tables) (bb : ℕ) (prob : ℚ)
    (dist : ℤ) : (helper an slot left T bb prob dist).1.entries ≠ [] := by
  cases left with
  | zero => simp [helper, PyDict.single]
  | succ left =>
    unfold helper
    split
    · rename_i h
      simpa [shift] using h
    · split
      · simp [PyDict.single]
      · simp only
        split
        · simp [PyDict.single]
        · rename_i h
          exact h

/-- The walk from a silent block goes on from its predecessors. -/
theorem helper_inner {slot : Slot} {T : Tables} (left : ℕ) (prob : ℚ) (dist : ℤ)
    (hempty : (T (bb, slot)).entries = []) (hsilent : Silent an slot bb)
    (hpreds : an.cfg.predecessors bb ≠ []) :
    ∃ D T', Turns an (fun T p q d D T' => helper an slot left T p q d = (D, T')) bb prob dist
        (an.cfg.predecessors bb) .empty T D T' ∧
      helper an slot (left + 1) T bb prob dist =
        (D, Function.update T' (bb, slot) (write_back D prob dist (T' (bb, slot)))) := by
  have hturns := turns_foldl an (helper an slot left) bb prob dist (an.cfg.predecessors bb)
    .empty T
  refine ⟨_, _, hturns, ?_⟩
  have hne := hturns.ne_nil (fun T p q d D T' hD => by
    have := helper_ne_nil an slot left T p q d
    rwa [hD] at this) (Or.inr hpreds)
  rw [helper, if_neg (not_not.mpr hempty), List.getLast?_eq_none_iff.mpr hsilent]
  simp only [if_neg hne]

/-- The induction over a walk: what holds for each way a walk can end, when it holds for the
walks from the predecessors, holds for every walk. -/
theorem helper_induct {an : Analyzer} {slot : Slot}
    {P : ℕ → Tables → ℕ → ℚ → ℤ → Table → Tables → Prop}
    (cut : ∀ T bb prob dist, P 0 T bb prob dist (.single MAX_INT prob) T)
    (read : ∀ left T bb prob dist, (T (bb, slot)).entries ≠ [] →
      P (left + 1) T bb prob dist (shift (T (bb, slot)) prob dist) T)
    (access : ∀ left T bb prob dist last, (T (bb, slot)).entries = [] →
      (an.reg_insts bb slot).getLast? = some last →
      P (left + 1) T bb prob dist (.single (an.insts bb - last + dist) prob)
        (Function.update T (bb, slot) (.single (an.insts bb - last) 1)))
    (entry : ∀ left T bb prob dist, (T (bb, slot)).entries = [] → Silent an slot bb →
      an.cfg.predecessors bb = [] → P (left + 1) T bb prob dist (.single MAX_INT prob) T)
    (inner : ∀ left T bb prob dist D T', (T (bb, slot)).entries = [] → Silent an slot bb →
      an.cfg.predecessors bb ≠ [] →
      Turns an (fun T p q d D T' => helper an slot left T p q d = (D, T') ∧ P left T p q d D T')
        bb prob dist (an.cfg.predecessors bb) .empty T D T' →
      P (left + 1) T bb prob dist D
        (Function.update T' (bb, slot) (write_back D prob dist (T' (bb, slot)))))
    (left : ℕ) (T : Tables) (bb : ℕ) (prob : ℚ) (dist : ℤ) :
    P left T bb prob dist (helper an slot left T bb prob dist).1
      (helper an slot left T bb prob dist).2 := by
  induction left generalizing T bb prob dist with
  | zero => exact cut T bb prob dist
  | succ left ih =>
    by_cases hempty : (T (bb, slot)).entries = []
    · rcases hlast : (an.reg_insts bb slot).getLast? with _ | last
      · have hsilent : Silent an slot bb := List.getLast?_eq_none_iff.mp hlast
        by_cases hpreds : an.cfg.predecessors bb = []
        · have hleaf := entry left T bb prob dist hempty hsilent hpreds
          rw [helper, if_neg (not_not.mpr hempty), hlast, hpreds]
          exact hleaf
        · obtain ⟨D, T', hturns, hres⟩ := helper_inner left prob dist hempty hsilent hpreds
          rw [hres]
          refine inner left T bb prob dist D T' hempty hsilent hpreds (hturns.mono ?_)
          intro T p q d D T' hD
          have hsub := ih T p q d
          rw [hD] at hsub
          exact ⟨hD, hsub⟩
      · rw [helper, if_neg (not_not.mpr hempty), hlast]
        exact access left T bb prob dist last hempty hlast
    · rw [helper, if_pos hempty]
      exact read left T bb prob dist hempty

/-! ## What a walk leaves alone -/

theorem Turns.keeps {dist : ℤ} {T : Tables} {key : ℕ × Slot} {Q : Table → Prop}
    (h : Turns an C bb prob dist parents D T D' T')
    (hC : ∀ T p q d D T', C T p q d D T' → Q (T key) → T' key = T key) (hQ : Q (T key)) :
    T' key = T key := by
  induction h with
  | nil D T => rfl
  | cons turn _ ih =>
    have hfirst := hC _ _ _ _ _ _ turn hQ
    rw [ih (by rw [hfirst]; exact hQ), hfirst]

/-- A walk changes no table that has an entry, and no table of another slot. -/
theorem helper_keeps (an : Analyzer) (slot : Slot) (left : ℕ) (T : Tables) (bb : ℕ) (prob : ℚ)
    (dist : ℤ) (key : ℕ × Slot) (hkey : (T key).entries ≠ [] ∨ key.2 ≠ slot) :
    (helper an slot left T bb prob dist).2 key = T key := by
  revert hkey
  refine helper_induct (P := fun _ T _ _ _ _ T' =>
    (T key).entries ≠ [] ∨ key.2 ≠ slot → T' key = T key) ?_ ?_ ?_ ?_ ?_ left T bb prob dist
  · intro T bb prob dist _
    rfl
  · intro left T bb prob dist _ _
    rfl
  · intro left T bb prob dist last hempty _ hkey
    rw [Function.update_of_ne]
    rintro rfl
    rcases hkey with hkey | hkey
    · exact hkey hempty
    · exact hkey rfl
  · intro left T bb prob dist _ _ _ _
    rfl
  · intro left T bb prob dist D T' hempty _ _ hturns hkey
    rw [Function.update_of_ne]
    · exact hturns.keeps (Q := fun t => t.entries ≠ [] ∨ key.2 ≠ slot)
        (fun _ _ _ _ _ _ hC => hC.2) hkey
    · rintro rfl
      rcases hkey with hkey | hkey
      · exact hkey hempty
      · exact hkey rfl

end ditto.data_dependency_analyzer
