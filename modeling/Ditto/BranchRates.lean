-- The rates of the branches. Each block with a branch counts with its
-- executions in the bin nearest to its taken rate. The bins law: no execution
-- is lost, and what the application has more than the skeleton is its share.
import Ditto.BranchTrace
import Ditto.Lib.Mass
import Ditto.Lib.NearestBin
import Mathlib.Algebra.Order.BigOperators.Ring.Finset
import Mathlib.Tactic.Linarith

namespace ditto.branch_analyzer

open ditto.base_analyzer

/-! ## The taken rates -/

structure TakenRate where
  taken_rates : ℚ
  executions : ℕ
deriving DecidableEq

/-- One turn of the loop over the edges. -/
def add_taken (dcfg : Dcfg) (branch_taken_rates : PyDict ℕ TakenRate) (e : (ℕ × ℕ) × Edge) :
    PyDict ℕ TakenRate :=
  let executions := (executionsOf dcfg e.1.1).getD 0
  if e.2.type ∈ conditional_types ∧ 0 < executions then
    match branch_taken_rates.get? e.1.1 with
    | none => branch_taken_rates.set e.1.1 ⟨e.2.forward_prob, executions⟩
    | some r => branch_taken_rates.set e.1.1 { r with taken_rates := r.taken_rates + e.2.forward_prob }
  else branch_taken_rates

def profile_branch_taken_rate (dcfg : Dcfg) : PyDict ℕ TakenRate :=
  dcfg.edges.entries.foldl (add_taken dcfg) .empty

/-! ## The bins -/

def determine_bin_helper : List ℚ → ℚ → ℚ
  | b :: b' :: bins, val =>
    if |val - b| < |val - b'| then b else determine_bin_helper (b' :: bins) val
  | _, _ => 0

def taken_bins : List ℚ := (List.range 7).map (fun i => (1 / 2) ^ (i + 1)) ++ [0]

def transition_bins : List ℚ := (List.range 8).map (fun i => (1 / 2) ^ i) ++ [0]

/-- The smaller one of the rates of the two outcomes. -/
def folded (taken_rate : ℚ) : ℚ := if taken_rate < 1 / 2 then taken_rate else 1 - taken_rate

/-- The key of a block. There are no transition rates if transitions are ignored. -/
def stats_key (transition_rates : Option (PyDict ℕ ℚ)) (bb_id : ℕ) (r : TakenRate) : ℚ × ℚ :=
  (determine_bin_helper taken_bins (folded r.taken_rates),
    match transition_rates with
    | some rates => determine_bin_helper transition_bins ((rates.get? bb_id).getD 0)
    | none => 0)

/-- One turn of the loop over the blocks. -/
def add_stats (transition_rates : Option (PyDict ℕ ℚ)) (stats : PyDict (ℚ × ℚ) ℕ)
    (e : ℕ × TakenRate) : PyDict (ℚ × ℚ) ℕ :=
  let key := stats_key transition_rates e.1 e.2
  match stats.get? key with
  | none => stats.set key e.2.executions
  | some n => stats.set key (n + e.2.executions)

def cal_stats (transition_rates : Option (PyDict ℕ ℚ)) (branch_taken_rates : PyDict ℕ TakenRate) :
    PyDict (ℚ × ℚ) ℕ :=
  branch_taken_rates.entries.foldl (add_stats transition_rates) .empty

/-! ## The analysis -/

/-- The keys that are read back. -/
def grid (ignore_transition : Bool) : List (ℚ × ℚ) :=
  taken_bins.flatMap fun taken_bin =>
    if ignore_transition then [(taken_bin, 0)]
    else transition_bins.map fun transition_bin => (taken_bin, transition_bin)

def difference (app_stats skeleton_stats : PyDict (ℚ × ℚ) ℕ) (key : ℚ × ℚ) : ℚ :=
  match app_stats.get? key, skeleton_stats.get? key with
  | some a, some s => max 0 ((a : ℚ) - s)
  | some a, none => a
  | none, _ => 0

def normalise (stats : PyDict (ℚ × ℚ) ℚ) : PyDict (ℚ × ℚ) ℚ :=
  if stats.total = 0 then .single (0, 0) 1 else stats.mapVal fun _ v => v / stats.total

/-- A graph with the traces of its threads. -/
structure Profile where
  dcfg : Dcfg
  itraces : PyDict ℕ (List (List Char))

def transition_rates (ignore_transition skeleton : Bool) (app_tids : List ℕ) (p : Profile) :
    Except PyError (Option (PyDict ℕ ℚ)) := do
  if ignore_transition then return none
  else return some (← profile_branch_transition skeleton app_tids p.dcfg p.itraces)

def run_analysis (ignore_transition : Bool) (app_tids : List ℕ) (app skeleton : Profile) :
    Except PyError (PyDict (ℚ × ℚ) ℚ) := do
  let app_rates ← transition_rates ignore_transition false app_tids app
  let skeleton_rates ← transition_rates ignore_transition true app_tids skeleton
  let app_stats := cal_stats app_rates (profile_branch_taken_rate app.dcfg)
  let skeleton_stats := cal_stats skeleton_rates (profile_branch_taken_rate skeleton.dcfg)
  return normalise ((grid ignore_transition).foldl
    (fun stats key => stats.set key (difference app_stats skeleton_stats key)) .empty)

/-! ## The nearest bin -/

/-- A value nearer to the first of two bins is nearer to it than to all bins below the second. -/
theorem nearer_of_le {val b b' c : ℚ} (hb : b' < b) (h : |val - b| < |val - b'|) (hc : c ≤ b') :
    |val - b| < |val - c| := by
  have hval : b' ≤ val := by
    by_contra hlt
    rw [not_le] at hlt
    rw [abs_of_neg (by linarith), abs_of_neg (by linarith)] at h
    linarith
  have hle : |val - b'| ≤ |val - c| := by
    rw [abs_of_nonneg (by linarith), abs_of_nonneg (by linarith)]
    linarith
  exact lt_of_lt_of_le h hle

/-- The scan of falling bins that end with 0 finds the nearest one. -/
theorem nearest_determine_bin {bins : List ℚ} (val : ℚ) (hfall : bins.Pairwise (· > ·))
    (hlast : bins.getLast? = some 0) : NearestBin bins val (determine_bin_helper bins val) := by
  induction bins with
  | nil => cases hlast
  | cons b bins ih =>
    rcases bins with _ | ⟨b', bins⟩
    · cases hlast
      refine ⟨List.mem_singleton_self _, ?_⟩
      rintro c hc
      rw [List.mem_singleton.mp hc]
      exact Or.inr ⟨rfl, le_refl _⟩
    · rw [List.pairwise_cons] at hfall
      have hbelow : ∀ c ∈ b' :: bins, c ≤ b' := by
        intro c hc
        rcases List.mem_cons.mp hc with rfl | hc
        · exact le_refl _
        · exact le_of_lt ((List.pairwise_cons.mp hfall.2).1 c hc)
      unfold determine_bin_helper
      split
      · rename_i hnear
        refine ⟨List.mem_cons_self, List.forall_mem_cons.mpr ⟨Or.inr ⟨rfl, le_refl _⟩, ?_⟩⟩
        intro c hc
        exact Or.inl (nearer_of_le (hfall.1 b' List.mem_cons_self) hnear (hbelow c hc))
      · rename_i hfar
        obtain ⟨hmem, hnearest⟩ := ih hfall.2 (by rw [← hlast, List.getLast?_cons_cons])
        refine ⟨List.mem_cons_of_mem _ hmem, List.forall_mem_cons.mpr ⟨?_, hnearest⟩⟩
        -- The bin is as near as the second one, which is as near as the first.
        have hle : |val - determine_bin_helper (b' :: bins) val| ≤ |val - b'| := by
          rcases hnearest b' List.mem_cons_self with h | h
          · exact le_of_lt h
          · exact le_of_eq h.1
        rcases lt_or_eq_of_le (le_trans hle (not_lt.mp hfar)) with h | h
        · exact Or.inl h
        · exact Or.inr ⟨h, le_of_lt (hfall.1 _ hmem)⟩

theorem nearest_taken_bin (val : ℚ) :
    NearestBin taken_bins val (determine_bin_helper taken_bins val) :=
  nearest_determine_bin val (by decide +kernel) (by decide +kernel)

theorem nearest_taken_bin_iff {val b : ℚ} :
    NearestBin taken_bins val b ↔ determine_bin_helper taken_bins val = b :=
  ⟨fun h => (nearest_taken_bin val).unique h, fun h => h ▸ nearest_taken_bin val⟩

theorem folded_eq_min (t : ℚ) : folded t = min t (1 - t) := by
  unfold folded
  split
  · exact (min_eq_left (by linarith)).symm
  · exact (min_eq_right (by linarith)).symm

/-! ## The blocks with a branch -/

/-- The edges of a row that are branches from a block. -/
def branch_edges (l : List ((ℕ × ℕ) × Edge)) (b : ℕ) : List ((ℕ × ℕ) × Edge) :=
  l.filter fun e => e.1.1 = b ∧ e.2.type ∈ conditional_types

def executions (dcfg : Dcfg) (b : ℕ) : ℕ := (executionsOf dcfg b).getD 0

/-- The blocks with a branch that were executed. -/
def branch_blocks (dcfg : Dcfg) : Finset ℕ :=
  dcfg.nodes.keys.toFinset.filter fun b =>
    0 < executions dcfg b ∧ branch_edges dcfg.edges.entries b ≠ []

def taken_rate (dcfg : Dcfg) (b : ℕ) : ℚ :=
  ((branch_edges dcfg.edges.entries b).map fun e => e.2.forward_prob).sum

theorem branch_edges_append (l : List ((ℕ × ℕ) × Edge)) (e : (ℕ × ℕ) × Edge) (b : ℕ) :
    branch_edges (l ++ [e]) b =
      if e.1.1 = b ∧ e.2.type ∈ conditional_types then branch_edges l b ++ [e]
      else branch_edges l b := by
  unfold branch_edges
  rw [List.filter_append]
  by_cases h : e.1.1 = b ∧ e.2.type ∈ conditional_types <;> simp [h]

theorem get?_add_taken (dcfg : Dcfg) (acc : PyDict ℕ TakenRate) (e : (ℕ × ℕ) × Edge) (b : ℕ) :
    (add_taken dcfg acc e).get? b =
      if e.1.1 = b ∧ e.2.type ∈ conditional_types ∧ 0 < executions dcfg b then
        some (match acc.get? b with
          | none => ⟨e.2.forward_prob, executions dcfg b⟩
          | some r => ⟨r.taken_rates + e.2.forward_prob, r.executions⟩)
      else acc.get? b := by
  unfold add_taken
  change (if e.2.type ∈ conditional_types ∧ 0 < executions dcfg e.1.1 then _ else _ :
    PyDict ℕ TakenRate).get? b = _
  by_cases hb : e.1.1 = b
  · subst hb
    simp only [true_and]
    split
    · rcases hget : acc.get? e.1.1 with _ | r
      · exact PyDict.get?_set_self _ _ _
      · exact PyDict.get?_set_self _ _ _
    · rfl
  · have hother : ¬ (e.1.1 = b ∧ e.2.type ∈ conditional_types ∧ 0 < executions dcfg b) :=
      fun h => hb h.1
    rw [if_neg hother]
    split
    · rcases acc.get? e.1.1 with _ | r
      · exact PyDict.get?_set_of_ne _ _ (Ne.symm hb)
      · exact PyDict.get?_set_of_ne _ _ (Ne.symm hb)
    · rfl

/-- A block with a branch has the sum of the probabilities of its branches. -/
theorem get?_taken_rates (dcfg : Dcfg) (l : List ((ℕ × ℕ) × Edge)) (b : ℕ) :
    (l.foldl (add_taken dcfg) .empty).get? b =
      if 0 < executions dcfg b ∧ branch_edges l b ≠ [] then
        some ⟨((branch_edges l b).map fun e => e.2.forward_prob).sum, executions dcfg b⟩
      else none := by
  induction l using List.reverseRecOn with
  | nil => simp [branch_edges, PyDict.get?]
  | append_singleton l e ih =>
    rw [List.foldl_append, List.foldl_cons, List.foldl_nil, get?_add_taken, ih, branch_edges_append]
    by_cases hpos : 0 < executions dcfg b
    · by_cases hedge : e.1.1 = b ∧ e.2.type ∈ conditional_types
      · by_cases hnil : branch_edges l b = []
        · simp [hpos, hedge, hnil]
        · simp [hpos, hedge, hnil]
      · rw [if_neg fun h => hedge ⟨h.1, h.2.1⟩, if_neg hedge]
    · simp [hpos]

theorem get?_profile (dcfg : Dcfg) (b : ℕ) :
    (profile_branch_taken_rate dcfg).get? b =
      if b ∈ branch_blocks dcfg then some ⟨taken_rate dcfg b, executions dcfg b⟩ else none := by
  unfold profile_branch_taken_rate
  rw [get?_taken_rates]
  refine if_congr ?_ rfl rfl
  unfold branch_blocks
  rw [Finset.mem_filter, List.mem_toFinset]
  refine ⟨fun h => ⟨?_, h⟩, fun h => h.2⟩
  -- A block with executions is a node of the graph.
  by_contra hmem
  have hzero : executions dcfg b = 0 := by
    unfold executions executionsOf
    rw [PyDict.get?_eq_none_iff.mpr hmem]
    rfl
  omega

/-! ## The executions in the bins -/

theorem add_stats_eq (transition_rates : Option (PyDict ℕ ℚ)) (stats : PyDict (ℚ × ℚ) ℕ)
    (e : ℕ × TakenRate) : add_stats transition_rates stats e =
      stats.add (stats_key transition_rates e.1 e.2) e.2.executions := by
  simp only [add_stats, PyDict.add, PyDict.val]
  rcases stats.get? (stats_key transition_rates e.1 e.2) with _ | n
  · rw [Option.getD_none, Nat.zero_add]
  · rfl

theorem val_stats (transition_rates : Option (PyDict ℕ ℚ)) (l : List (ℕ × TakenRate))
    (key : ℚ × ℚ) :
    (l.foldl (add_stats transition_rates) .empty).val key =
      (l.map fun e => if stats_key transition_rates e.1 e.2 = key then e.2.executions else 0).sum := by
  have hadd : add_stats transition_rates = fun stats e =>
      stats.add (stats_key transition_rates e.1 e.2) e.2.executions := by
    funext stats e
    exact add_stats_eq transition_rates stats e
  rw [hadd, PyDict.val_foldl_add, PyDict.val_empty, Nat.zero_add]

/-- The executions of the blocks whose bin this is. -/
def bin_weight (dcfg : Dcfg) (b : ℚ) : ℕ :=
  ∑ bb ∈ branch_blocks dcfg with
    NearestBin taken_bins (min (taken_rate dcfg bb) (1 - taken_rate dcfg bb)) b, executions dcfg bb

theorem sum_entries_profile (dcfg : Dcfg) (f : ℕ → TakenRate → ℕ) :
    ((profile_branch_taken_rate dcfg).entries.map fun e => f e.1 e.2).sum =
      ∑ bb ∈ branch_blocks dcfg, f bb ⟨taken_rate dcfg bb, executions dcfg bb⟩ := by
  let m : PyDict ℕ ℕ := (profile_branch_taken_rate dcfg).mapVal f
  have htotal : m.total = ((profile_branch_taken_rate dcfg).entries.map fun e => f e.1 e.2).sum := by
    change (List.map Prod.snd (List.map _ _)).sum = _
    rw [List.map_map]
    rfl
  have hget : ∀ bb, m.get? bb = if bb ∈ branch_blocks dcfg then
      some (f bb ⟨taken_rate dcfg bb, executions dcfg bb⟩) else none := by
    intro bb
    unfold m
    rw [PyDict.get?_mapVal, get?_profile]
    split <;> rfl
  have hsub : ∀ bb ∈ m.keys, bb ∈ branch_blocks dcfg := by
    intro bb hbb
    by_contra hmem
    have hnone := hget bb
    rw [if_neg hmem, PyDict.get?_eq_none_iff] at hnone
    exact hnone hbb
  rw [← htotal, PyDict.total_eq_sum_of_subset hsub]
  apply Finset.sum_congr rfl
  intro bb hbb
  unfold PyDict.val
  rw [hget, if_pos hbb]
  rfl

/-- Each bin holds the executions of its blocks. -/
theorem val_cal_stats (dcfg : Dcfg) (key : ℚ × ℚ) :
    (cal_stats none (profile_branch_taken_rate dcfg)).val key =
      if key.2 = 0 then bin_weight dcfg key.1 else 0 := by
  unfold cal_stats
  rw [val_stats, sum_entries_profile dcfg fun bb r =>
    if stats_key none bb r = key then r.executions else 0]
  by_cases hzero : key.2 = 0
  · unfold bin_weight
    rw [if_pos hzero, Finset.sum_filter]
    apply Finset.sum_congr rfl
    intro bb _
    refine if_congr ?_ rfl rfl
    rw [nearest_taken_bin_iff, ← folded_eq_min]
    unfold stats_key
    rw [Prod.ext_iff]
    exact ⟨fun h => h.1, fun h => ⟨h, hzero.symm⟩⟩
  · rw [if_neg hzero]
    apply Finset.sum_eq_zero
    intro bb _
    rw [if_neg]
    rintro rfl
    exact hzero rfl

theorem grid_eq : grid true = taken_bins.map fun b => (b, 0) := by
  unfold grid
  rw [← List.flatMap_singleton' (taken_bins.map _), List.flatMap_map]
  rfl

theorem nodup_taken_bins : taken_bins.Nodup := by decide +kernel

/-- Every execution of a block with a branch is in one bin of the grid. -/
theorem sum_bin_weight (dcfg : Dcfg) :
    (taken_bins.map (bin_weight dcfg)).sum = ∑ bb ∈ branch_blocks dcfg, executions dcfg bb := by
  unfold bin_weight
  rw [← List.sum_toFinset _ nodup_taken_bins]
  simp only [Finset.sum_filter]
  rw [Finset.sum_comm]
  apply Finset.sum_congr rfl
  intro bb _
  simp only [nearest_taken_bin_iff]
  rw [Finset.sum_ite_eq, if_pos (List.mem_toFinset.mpr (nearest_taken_bin _).1)]

/-! ## The differences -/

/-- What the application has in a bin more than the skeleton. -/
def excess (app skeleton : Dcfg) (b : ℚ) : ℚ := max 0 ((bin_weight app b : ℚ) - bin_weight skeleton b)

theorem difference_eq (app_stats skeleton_stats : PyDict (ℚ × ℚ) ℕ) (key : ℚ × ℚ) :
    difference app_stats skeleton_stats key =
      max 0 ((app_stats.val key : ℚ) - skeleton_stats.val key) := by
  unfold difference PyDict.val
  rcases app_stats.get? key with _ | a
  · rcases skeleton_stats.get? key with _ | s <;> simp
  · rcases skeleton_stats.get? key with _ | s <;> simp

/-- The weights on the grid before they are divided. -/
def grid_stats (f : ℚ × ℚ → ℚ) : PyDict (ℚ × ℚ) ℚ :=
  (grid true).foldl (fun stats key => stats.set key (f key)) .empty

theorem entries_grid_stats (f : ℚ × ℚ → ℚ) :
    (grid_stats f).entries = (grid true).map fun key => (key, f key) := by
  have hnodup : (grid true).Nodup := by decide +kernel
  have hkeys : ((grid true).map fun key => (key, f key)).map Prod.fst = grid true := by
    rw [List.map_map]
    exact List.map_id _
  have hset : (PyDict.empty.setAll ((grid true).map fun key => (key, f key))).entries =
      [] ++ (grid true).map fun key => (key, f key) :=
    PyDict.entries_setAll (by rw [hkeys]; exact hnodup)
  unfold PyDict.setAll at hset
  rw [List.foldl_map] at hset
  exact hset

theorem total_grid_stats (f : ℚ × ℚ → ℚ) :
    (grid_stats f).total = (taken_bins.map fun b => f (b, 0)).sum := by
  unfold PyDict.total PyDict.values
  rw [entries_grid_stats, grid_eq, List.map_map, List.map_map]
  rfl

theorem run_analysis_eq (app_tids : List ℕ) (app skeleton : Profile) :
    run_analysis true app_tids app skeleton =
      .ok (normalise (grid_stats fun key =>
        difference (cal_stats none (profile_branch_taken_rate app.dcfg))
          (cal_stats none (profile_branch_taken_rate skeleton.dcfg)) key)) := rfl

theorem difference_stats (app skeleton : Dcfg) (b : ℚ) :
    difference (cal_stats none (profile_branch_taken_rate app))
      (cal_stats none (profile_branch_taken_rate skeleton)) (b, 0) = excess app skeleton b := by
  rw [difference_eq, val_cal_stats, val_cal_stats]
  rfl

theorem excess_nonneg (app skeleton : Dcfg) (b : ℚ) : 0 ≤ excess app skeleton b := le_max_left _ _

theorem sum_excess_nonneg (app skeleton : Dcfg) :
    0 ≤ (taken_bins.map (excess app skeleton)).sum := by
  apply List.sum_nonneg
  rintro _ hx
  obtain ⟨b, -, rfl⟩ := List.mem_map.mp hx
  exact excess_nonneg app skeleton b

theorem sum_excess_eq_zero_iff (app skeleton : Dcfg) :
    (taken_bins.map (excess app skeleton)).sum = 0 ↔ ∀ b ∈ taken_bins, excess app skeleton b = 0 := by
  constructor
  · intro h b hb
    refine List.all_zero_of_le_zero_le_of_sum_eq_zero ?_ h (List.mem_map_of_mem hb)
    rintro _ hx
    obtain ⟨b, -, rfl⟩ := List.mem_map.mp hx
    exact excess_nonneg app skeleton b
  · intro h
    apply List.sum_eq_zero
    rintro _ hx
    obtain ⟨b, hb, rfl⟩ := List.mem_map.mp hx
    exact h b hb

/-! ## The laws -/

/-- Each block with a branch counts with its executions in one bin, the nearest one to the smaller
one of its two rates, and the bins together hold the executions of all of them. -/
structure CountsOnce (dcfg : Dcfg) (stats : PyDict (ℚ × ℚ) ℕ) : Prop where
  one_bin : ∀ bb ∈ branch_blocks dcfg,
    ∃! b, NearestBin taken_bins (min (taken_rate dcfg bb) (1 - taken_rate dcfg bb)) b
  negative : ∀ bb ∈ branch_blocks dcfg, min (taken_rate dcfg bb) (1 - taken_rate dcfg bb) < 0 →
    NearestBin taken_bins (min (taken_rate dcfg bb) (1 - taken_rate dcfg bb)) 0
  weights : ∀ key, stats.val key = if key.2 = 0 then bin_weight dcfg key.1 else 0
  complete : ((grid true).map stats.val).sum = ∑ bb ∈ branch_blocks dcfg, executions dcfg bb

/-- The weights are the shares of what the application has more than the skeleton. -/
structure IsShares (app skeleton : Dcfg) (stats : PyDict (ℚ × ℚ) ℚ) : Prop where
  nonneg : ∀ v ∈ stats.values, 0 ≤ v
  total : stats.total = 1
  none_left : (∀ b ∈ taken_bins, excess app skeleton b = 0) → stats = .single (0, 0) 1
  shares : (∃ b ∈ taken_bins, excess app skeleton b ≠ 0) →
    stats.entries = taken_bins.map fun b =>
      ((b, 0), excess app skeleton b / (taken_bins.map (excess app skeleton)).sum)

theorem nearest_zero_of_neg {val : ℚ} (h : val < 0) : NearestBin taken_bins val 0 := by
  have hnonneg : ∀ c ∈ taken_bins, 0 ≤ c := by decide +kernel
  refine ⟨by decide +kernel, fun c hc => ?_⟩
  have hc := hnonneg c hc
  rw [abs_of_neg (by linarith), abs_of_neg (by linarith)]
  rcases lt_or_eq_of_le hc with hlt | heq
  · exact Or.inl (by linarith)
  · exact Or.inr ⟨by linarith, hc⟩

theorem countsOnce_cal_stats (dcfg : Dcfg) :
    CountsOnce dcfg (cal_stats none (profile_branch_taken_rate dcfg)) where
  one_bin bb _ := ⟨_, nearest_taken_bin _, fun _ h => h.unique (nearest_taken_bin _)⟩
  negative bb _ h := nearest_zero_of_neg h
  weights := val_cal_stats dcfg
  complete := by
    rw [← sum_bin_weight, grid_eq, List.map_map]
    congr 1
    apply List.map_congr_left
    intro b _
    exact val_cal_stats dcfg (b, 0)

theorem isShares_normalise (app skeleton : Dcfg) (f : ℚ × ℚ → ℚ)
    (hf : ∀ b, f (b, 0) = excess app skeleton b) :
    IsShares app skeleton (normalise (grid_stats f)) := by
  have htotal : (grid_stats f).total = (taken_bins.map (excess app skeleton)).sum := by
    rw [total_grid_stats, List.map_congr_left fun b _ => hf b]
  have hzero := sum_excess_eq_zero_iff app skeleton
  unfold normalise
  split
  · rename_i hsum
    rw [htotal] at hsum
    refine ⟨by simp [PyDict.values, PyDict.single], PyDict.total_single _ _, fun _ => rfl, ?_⟩
    rintro ⟨b, hb, hne⟩
    exact absurd (hzero.mp hsum b hb) hne
  · rename_i hsum
    have hentries : ((grid_stats f).mapVal fun _ v => v / (grid_stats f).total).entries =
        taken_bins.map fun b =>
          ((b, 0), excess app skeleton b / (taken_bins.map (excess app skeleton)).sum) := by
      change (grid_stats f).entries.map _ = _
      rw [htotal, entries_grid_stats, grid_eq, List.map_map, List.map_map]
      apply List.map_congr_left
      intro b _
      simp only [Function.comp_apply, hf]
    refine ⟨?_, ?_, fun h => absurd (hzero.mpr h) (htotal ▸ hsum), fun _ => hentries⟩
    · intro v hv
      unfold PyDict.values at hv
      rw [hentries, List.map_map] at hv
      obtain ⟨b, -, rfl⟩ := List.mem_map.mp hv
      exact div_nonneg (excess_nonneg app skeleton b) (sum_excess_nonneg app skeleton)
    · rw [PyDict.total_mapVal_div, div_self hsum]

/-- The statistics of the branches count each execution once, and the analysis gives the shares of
the bins in what the application has more than the skeleton. -/
theorem branch_stats_count_each_execution_once (app_tids : List ℕ) (app skeleton : Profile) :
    (∀ dcfg, CountsOnce dcfg (cal_stats none (profile_branch_taken_rate dcfg))) ∧
    ∃ stats, run_analysis true app_tids app skeleton = .ok stats ∧
      IsShares app.dcfg skeleton.dcfg stats := by
  refine ⟨countsOnce_cal_stats, _, run_analysis_eq app_tids app skeleton, ?_⟩
  exact isShares_normalise _ _ _ (difference_stats app.dcfg skeleton.dcfg)

end ditto.branch_analyzer
