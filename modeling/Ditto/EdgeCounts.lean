-- The executions of the edges. In the graph of the chosen threads the edges
-- into a node share its executions. The counts law: an execution is lost
-- just where a later row joins the same two blocks.
import Ditto.Dcfg
import Ditto.Lib.Mass
import Mathlib.Algebra.BigOperators.Group.Finset.Piecewise
import Mathlib.Algebra.Order.Field.Basic
import Mathlib.Data.Rat.Cast.Order
import Mathlib.Tactic.Positivity

namespace ditto.base_analyzer

/-! ## The graph of the threads, edge by edge -/

/-- The executions of the chosen threads in a row of counts. -/
def count_sum (tids counts : List ℕ) : ℕ := (tids.map fun i => counts[i]?.getD 0).sum

variable {tids : List ℕ}

theorem thread_sum_eq_ok {counts : List ℕ} (h : ∀ i ∈ tids, i < counts.length) :
    thread_sum tids counts = .ok (count_sum tids counts) := by
  unfold thread_sum
  rw [PyError.mapM_eq_ok (g := fun i => counts[i]?.getD 0)]
  · rfl
  · intro i hi
    rw [List.getElem?_eq_getElem (h i hi)]
    rfl

theorem eq_count_sum {counts : List ℕ} {n : ℕ} (h : thread_sum tids counts = .ok n) :
    n = count_sum tids counts := by
  have hrange : ∀ i ∈ tids, i < counts.length := by
    unfold thread_sum at h
    obtain ⟨picked, hpicked, -⟩ := PyError.ok_of_bind h
    intro i hi
    obtain ⟨n, -, hn⟩ := exists_of_forall₂ (PyError.forall₂_of_mapM hpicked).flip hi
    by_contra hlen
    rw [List.getElem?_eq_none (Nat.not_lt.mp hlen)] at hn
    cases hn
  rw [thread_sum_eq_ok hrange] at h
  exact (Except.ok.inj h).symm

variable {full : FullDcfg}

theorem build_ok (h : ∀ e ∈ full.edges.entries, ∀ i ∈ tids, i < e.2.executions.length) :
    ∃ d, build_target_tid_dcfg tids full = .ok d := by
  have hcount : ∀ e ∈ full.edges.entries, ∃ v, count_edge tids e.2 = .ok v := by
    intro e he
    unfold count_edge
    rw [thread_sum_eq_ok (h e he)]
    exact ⟨_, rfl⟩
  obtain ⟨edges, hedges⟩ := PyDict.mapM_ok (f := fun _ e => count_edge tids e) hcount
  obtain ⟨counted, hcounted⟩ := DiGraph.mapEdgesM_ok hedges
  unfold build_target_tid_dcfg count_edges
  rw [hcounted]
  exact ⟨_, rfl⟩

/-- The edges that are left, each with the probabilities that its ends give it. -/
theorem build_entries {d : Dcfg} (h : build_target_tid_dcfg tids full = .ok d) :
    ∃ counted, count_edges tids full = .ok counted ∧ d.nodes.keys = full.nodes.keys ∧
      d.edges.entries = counted.edges.entries.map fun e =>
        (e.1, ⟨e.2.type, e.2.executions, e.2.func,
          call_prob e.2.executions ((executionsOf d e.1.1).getD 0),
          call_prob e.2.executions ((executionsOf d e.1.2).getD 0)⟩) := by
  unfold build_target_tid_dcfg at h
  obtain ⟨counted, hcounted, h⟩ := PyError.ok_of_bind h
  cases h
  refine ⟨counted, hcounted, ?_, rfl⟩
  rw [← (count_edges_spec hcounted).1]
  exact PyDict.keys_mapVal _ _

theorem executions_ne_zero_of_count {counted : CountedDcfg}
    (h : count_edges tids full = .ok counted) {e : (ℕ × ℕ) × CountedEdge}
    (he : e ∈ counted.edges.entries) : 0 < e.2.executions := by
  obtain ⟨-, all, -, hleft⟩ := count_edges_spec h
  rw [hleft] at he
  exact Nat.pos_of_ne_zero (by simpa using (List.mem_filter.mp he).2)

theorem executions_pos {d : Dcfg} (h : build_target_tid_dcfg tids full = .ok d) {e : (ℕ × ℕ) × Edge}
    (he : e ∈ d.edges.entries) : 0 < e.2.executions := by
  obtain ⟨counted, hcounted, -, hentries⟩ := build_entries h
  rw [hentries] at he
  obtain ⟨c, hc, rfl⟩ := List.mem_map.mp he
  exact executions_ne_zero_of_count hcounted hc

theorem prob_eq {d : Dcfg} (h : build_target_tid_dcfg tids full = .ok d) {e : (ℕ × ℕ) × Edge}
    (he : e ∈ d.edges.entries) :
    e.2.forward_prob = call_prob e.2.executions ((executionsOf d e.1.1).getD 0) ∧
      e.2.backward_prob = call_prob e.2.executions ((executionsOf d e.1.2).getD 0) := by
  obtain ⟨counted, -, -, hentries⟩ := build_entries h
  rw [hentries] at he
  obtain ⟨c, -, rfl⟩ := List.mem_map.mp he
  exact ⟨rfl, rfl⟩

theorem mem_nodes_of_in_edges {d : Dcfg} {b : ℕ} (hb : d.in_edges b ≠ []) : b ∈ d.nodes.keys := by
  obtain ⟨e, he⟩ := List.exists_mem_of_ne_nil _ hb
  obtain ⟨hedge, hend⟩ := List.mem_filter.mp he
  rw [← of_decide_eq_true hend]
  exact (d.closed e.1 (List.mem_map_of_mem hedge)).2

/-- The executions of a node are those of the edges into it, if there is an edge. -/
theorem executionsOf_in_edges {d : Dcfg} (h : build_target_tid_dcfg tids full = .ok d) {b : ℕ}
    (hb : d.in_edges b ≠ []) :
    executionsOf d b = some ((d.in_edges b).map fun e => e.2.executions).sum := by
  obtain ⟨counted, hcounted, hnodes, -⟩ := build_spec h
  obtain ⟨counted', hcounted', hkeys, hentries⟩ := build_entries h
  rw [hcounted] at hcounted'
  cases hcounted'
  have hin : (d.in_edges b).map (fun e => (e.1, e.2.executions)) =
      (counted.in_edges b).map fun e => (e.1, e.2.executions) := by
    unfold DiGraph.in_edges
    rw [hentries, List.filter_map, List.map_map]
    rfl
  have hsum : (d.in_edges b).map (fun e => e.2.executions) =
      (counted.in_edges b).map fun e => e.2.executions := by
    have hsnd := congrArg (List.map Prod.snd) hin
    rwa [List.map_map, List.map_map] at hsnd
  have hne : counted.in_edges b ≠ [] := by
    intro hnil
    rw [hnil, List.map_nil, List.map_eq_nil_iff] at hin
    exact hb hin
  -- The node is there, as the end of an edge.
  obtain ⟨info, hinfo⟩ : ∃ info, full.nodes.get? b = some info := by
    apply PyDict.exists_get?_of_mem_keys
    rw [← hkeys]
    exact mem_nodes_of_in_edges hb
  rw [hnodes, hinfo, Option.map_some, update_node_executions, if_neg hne, hsum]

/-! ## The probabilities -/

theorem call_prob_pos {executions : ℕ} (total : ℕ) (h : 0 < executions) :
    0 < call_prob executions total := by
  unfold call_prob
  split
  · rename_i htotal
    have hpos : 0 < total := Nat.pos_of_ne_zero htotal
    exact lt_min (by positivity) one_pos
  · exact one_pos

theorem call_prob_le_one (executions total : ℕ) : call_prob executions total ≤ 1 := by
  unfold call_prob
  split
  · exact min_le_right _ _
  · exact le_refl _

/-- A part of the executions is not cut. -/
theorem call_prob_of_le {executions total : ℕ} (hpos : 0 < executions) (h : executions ≤ total) :
    call_prob executions total = (executions : ℚ) / total := by
  unfold call_prob
  rw [if_pos (by omega)]
  apply min_eq_left
  rw [div_le_one (by exact_mod_cast Nat.lt_of_lt_of_le hpos h)]
  exact_mod_cast h

variable {ι : Type}

theorem sum_div (l : List ι) (f : ι → ℕ) (n : ℚ) :
    (l.map fun x => (f x : ℚ) / n).sum = ((l.map f).sum : ℕ) / n := by
  induction l with
  | nil => simp
  | cons x l ih => rw [List.map_cons, List.sum_cons, ih, List.map_cons, List.sum_cons,
      Nat.cast_add, add_div]

/-- The backward probabilities of the edges into a node are the parts of its executions. -/
theorem backward_prob_eq {d : Dcfg} (h : build_target_tid_dcfg tids full = .ok d) {b : ℕ}
    {e : (ℕ × ℕ) × Edge} (he : e ∈ d.in_edges b) :
    e.2.backward_prob =
      (e.2.executions : ℚ) / ((d.in_edges b).map fun e => e.2.executions).sum := by
  obtain ⟨hedge, hend⟩ := List.mem_filter.mp he
  have hle : e.2.executions ≤ ((d.in_edges b).map fun e => e.2.executions).sum :=
    List.le_sum_of_mem (List.mem_map_of_mem (f := fun e => e.2.executions) he)
  rw [(prob_eq h hedge).2, of_decide_eq_true hend,
    executionsOf_in_edges h (List.ne_nil_of_mem he), Option.getD_some]
  exact call_prob_of_le (executions_pos h hedge) hle

theorem sum_backward_prob {d : Dcfg} (h : build_target_tid_dcfg tids full = .ok d) {b : ℕ}
    (hb : d.in_edges b ≠ []) : ((d.in_edges b).map fun e => e.2.backward_prob).sum = 1 := by
  obtain ⟨e, he⟩ := List.exists_mem_of_ne_nil _ hb
  have hpos := executions_pos h (List.mem_of_mem_filter he)
  have hle : e.2.executions ≤ ((d.in_edges b).map fun e => e.2.executions).sum :=
    List.le_sum_of_mem (List.mem_map_of_mem (f := fun e => e.2.executions) he)
  rw [List.map_congr_left fun e he => backward_prob_eq h he, sum_div]
  exact div_self (by exact_mod_cast Nat.ne_of_gt (Nat.lt_of_lt_of_le hpos hle))

/-- The executions of an edge, none if it is not in the graph. -/
def edgeExecutions (d : Dcfg) (e : ℕ × ℕ) : ℕ := ((d.edges.get? e).map Edge.executions).getD 0

theorem count_edges_get? {counted : CountedDcfg} (h : count_edges tids full = .ok counted)
    (e : ℕ × ℕ) :
    ((counted.edges.get? e).map CountedEdge.executions).getD 0 =
      ((full.edges.get? e).map fun a => count_sum tids a.executions).getD 0 := by
  unfold count_edges at h
  obtain ⟨g, hg, h⟩ := PyError.ok_of_bind h
  cases h
  obtain ⟨-, hmap⟩ := DiGraph.mapEdgesM_spec hg
  unfold DiGraph.filterEdges
  rw [PyDict.get?_filter]
  rcases hfull : full.edges.get? e with _ | a
  · rw [PyDict.get?_eq_none_iff, ← PyDict.keys_mapM hmap, ← PyDict.get?_eq_none_iff] at hfull
    rw [hfull]
    rfl
  · obtain ⟨c, hc, hget⟩ := PyDict.get?_mapM hmap hfull
    rw [hget, Option.map_some, ← eq_count_sum (count_edge_executions hc)]
    -- The edges that go have no executions.
    by_cases hzero : c.executions = 0
    · simp [Option.filter, hzero]
    · simp [Option.filter, hzero]

theorem edgeExecutions_eq {d : Dcfg} (h : build_target_tid_dcfg tids full = .ok d) (e : ℕ × ℕ) :
    edgeExecutions d e = ((full.edges.get? e).map fun a => count_sum tids a.executions).getD 0 := by
  obtain ⟨counted, hcounted, -, hedges⟩ := build_spec h
  rw [← count_edges_get? hcounted]
  have hfst := congrArg (Option.map Prod.fst) (hedges e)
  rw [Option.map_map, Option.map_map, Option.map_map] at hfst
  exact congrArg (Option.getD · 0) hfst

/-! ## The rows between two blocks -/

/-- The rows of `EDGES` that the load reads. -/
def DcfgJson.rows (json : DcfgJson) : List EdgeRow :=
  (json.processes.head?.bind Process.edges).getD []

/-- The row leads from `u` to `v`. -/
def EdgeRow.Joins (u v : ℕ) (row : EdgeRow) : Prop := row.source = u ∧ row.target = v

instance (u v : ℕ) : DecidablePred (EdgeRow.Joins u v) :=
  fun row => inferInstanceAs (Decidable (row.source = u ∧ row.target = v))

variable {g g' : FullDcfg}

theorem add_image_edges {info : PyDict ℕ BlockInfo} {image : Image}
    (h : add_image .values info g image = .ok g') (hg : g.edges = .empty) : g'.edges = .empty := by
  refine PyError.foldlM_inv (P := fun g : FullDcfg => g.edges = .empty) ?_ hg h
  intro g bb _ g' hg hbb
  obtain ⟨a, -, rfl⟩ := add_block_ok hbb
  exact hg

/-- A row writes the edge between its two blocks, if the graph has them. -/
theorem add_row_get? {types : PyDict ℕ String} {row : EdgeRow}
    (h : add_row .values types g row = .ok g') : g'.nodes = g.nodes ∧
      ∀ u ∈ g.nodes.keys, ∀ v ∈ g.nodes.keys,
        (g'.edges.get? (u, v)).map FullEdge.executions =
          if row.Joins u v then some row.executions
          else (g.edges.get? (u, v)).map FullEdge.executions := by
  obtain ⟨hin, e, he, rfl⟩ | ⟨hout, rfl⟩ := add_row_ok h
  · refine ⟨rfl, fun u _ v _ => ?_⟩
    by_cases hjoins : row.Joins u v
    · rw [if_pos hjoins, ← hjoins.1, ← hjoins.2]
      unfold DiGraph.add_edge
      rw [PyDict.get?_set_self, Option.map_some, he]
    · rw [if_neg hjoins]
      unfold DiGraph.add_edge
      rw [PyDict.get?_set_of_ne]
      rintro heq
      exact hjoins ⟨(congrArg Prod.fst heq).symm, (congrArg Prod.snd heq).symm⟩
  · refine ⟨rfl, fun u hu v hv => ?_⟩
    rw [if_neg]
    rintro ⟨rfl, rfl⟩
    exact hout ⟨hu, hv⟩

/-- The last row between two blocks is the one that stays. -/
theorem add_rows_get? {types : PyDict ℕ String} {rows : List EdgeRow}
    (h : rows.foldlM (add_row .values types) g = .ok g') : g'.nodes = g.nodes ∧
      ∀ u ∈ g.nodes.keys, ∀ v ∈ g.nodes.keys,
        (g'.edges.get? (u, v)).map FullEdge.executions =
          ((rows.filter (EdgeRow.Joins u v)).getLast?.map EdgeRow.executions).or
            ((g.edges.get? (u, v)).map FullEdge.executions) := by
  induction rows generalizing g with
  | nil =>
    cases h
    exact ⟨rfl, fun u _ v _ => rfl⟩
  | cons row rows ih =>
    rw [List.foldlM_cons] at h
    obtain ⟨m, hm, h⟩ := PyError.ok_of_bind h
    obtain ⟨hnodes, hrow⟩ := add_row_get? hm
    obtain ⟨hnodes', hrows⟩ := ih h
    refine ⟨hnodes'.trans hnodes, fun u hu v hv => ?_⟩
    rw [hrows u (hnodes ▸ hu) v (hnodes ▸ hv), hrow u hu v hv, List.filter_cons]
    by_cases hjoins : row.Joins u v
    · rw [if_pos hjoins, if_pos (decide_eq_true hjoins), List.getLast?_cons]
      cases (rows.filter (EdgeRow.Joins u v)).getLast? <;> rfl
    · rw [if_neg hjoins, if_neg (by simpa using hjoins)]

theorem parse_get? {json : DcfgJson} {bb_lines : List BBLine}
    (h : parse_dcfg json bb_lines = .ok full) {u v : ℕ} (hu : u ∈ full.nodes.keys)
    (hv : v ∈ full.nodes.keys) :
    (full.edges.get? (u, v)).map FullEdge.executions =
      (json.rows.filter (EdgeRow.Joins u v)).getLast?.map EdgeRow.executions := by
  unfold parse_dcfg parse_dcfg_in at h
  obtain ⟨info, -, h⟩ := PyError.ok_of_bind h
  unfold DcfgJson.rows
  split at h
  · cases h
  · rename_i process _ hprocesses
    split at h
    · rename_i images edges _ hedges
      obtain ⟨g, hg, h⟩ := PyError.ok_of_bind h
      obtain ⟨hnodes, hrows⟩ := add_rows_get? h
      have hempty : g.edges = .empty :=
        PyError.foldlM_inv (P := fun g : FullDcfg => g.edges = .empty)
          (fun _ _ _ _ hg himage => add_image_edges himage hg) rfl hg
      rw [hrows u (hnodes ▸ hu) v (hnodes ▸ hv), hempty, hprocesses]
      simp [hedges, PyDict.get?]
    · cases h

/-! ## Rows that take the place of others -/

/-- No row between two known blocks that the chosen threads executed has a row between the same
two blocks behind it. -/
def NoneReplaced (tids nodes : List ℕ) (rows : List EdgeRow) : Prop :=
  rows.Pairwise fun r r' => r.source ∈ nodes → r.target ∈ nodes → r'.Joins r.source r.target →
    count_sum tids r.executions = 0

instance decidableNoneReplaced (tids nodes : List ℕ) (rows : List EdgeRow) :
    Decidable (NoneReplaced tids nodes rows) :=
  inferInstanceAs (Decidable (List.Pairwise _ _))

theorem getLast_le_sum (w : ι → ℕ) (l : List ι) : (l.getLast?.map w).getD 0 ≤ (l.map w).sum := by
  rcases hlast : l.getLast? with _ | x
  · exact Nat.zero_le _
  · exact List.le_sum_of_mem (List.mem_map_of_mem (List.mem_of_getLast? hlast))

/-- The last weight is the sum just if all others are zero. -/
theorem getLast_eq_sum_iff (w : ι → ℕ) (l : List ι) :
    (l.getLast?.map w).getD 0 = (l.map w).sum ↔ l.Pairwise fun x _ => w x = 0 := by
  induction l with
  | nil => simp
  | cons x l ih =>
    rcases hl : l with _ | ⟨y, rest⟩
    · simp
    · rw [← hl, List.map_cons, List.sum_cons, List.pairwise_cons, ← ih, hl, List.getLast?_cons_cons,
        ← hl]
      have hle := getLast_le_sum w l
      have hx : (∀ z ∈ l, w x = 0) ↔ w x = 0 := by
        rw [hl]
        exact ⟨fun h => h y List.mem_cons_self, fun h _ _ => h⟩
      rw [hx]
      omega

theorem noneReplaced_iff (tids nodes : List ℕ) (rows : List EdgeRow) :
    NoneReplaced tids nodes rows ↔ ∀ u ∈ nodes, ∀ v ∈ nodes,
      (rows.filter (EdgeRow.Joins u v)).Pairwise fun r _ => count_sum tids r.executions = 0 := by
  unfold NoneReplaced
  constructor
  · intro h u hu v hv
    refine (List.Pairwise.and_mem.mp (h.sublist List.filter_sublist)).imp ?_
    rintro r r' ⟨hr, hr', hzero⟩
    obtain ⟨rfl, rfl⟩ := of_decide_eq_true (List.mem_filter.mp hr).2
    exact hzero hu hv (of_decide_eq_true (List.mem_filter.mp hr').2)
  · intro h
    rw [List.pairwise_iff_forall_sublist]
    intro r r' hsub hu hv hjoins
    have hpair := h r.source hu r.target hv
    rw [List.pairwise_iff_forall_sublist] at hpair
    refine hpair (b := r') ?_
    have hkept := hsub.filter (EdgeRow.Joins r.source r.target)
    rwa [List.filter_eq_self.mpr] at hkept
    rintro x hx
    rcases List.mem_pair.mp hx with rfl | rfl
    · exact decide_eq_true ⟨rfl, rfl⟩
    · exact decide_eq_true hjoins

/-- An edge has the executions of the last row between its blocks. -/
theorem edgeExecutions_last {json : DcfgJson} {bb_lines : List BBLine} {d : Dcfg}
    (hparse : parse_dcfg json bb_lines = .ok full)
    (hbuild : build_target_tid_dcfg tids full = .ok d) {u v : ℕ} (hu : u ∈ full.nodes.keys)
    (hv : v ∈ full.nodes.keys) :
    edgeExecutions d (u, v) = ((json.rows.filter (EdgeRow.Joins u v)).getLast?.map fun r =>
      count_sum tids r.executions).getD 0 := by
  have hlast := congrArg (Option.map (count_sum tids)) (parse_get? hparse hu hv)
  rw [Option.map_map, Option.map_map] at hlast
  rw [edgeExecutions_eq hbuild]
  exact congrArg (Option.getD · 0) hlast

/-! ## The edges into a block -/

theorem sum_in_edges (d : Dcfg) (v : ℕ) :
    ((d.in_edges v).map fun e => e.2.executions).sum =
      ∑ u ∈ d.nodes.keys.toFinset, edgeExecutions d (u, v) := by
  let m : PyDict (ℕ × ℕ) ℕ :=
    (d.edges.filter fun e _ => e.2 = v).mapVal fun _ a => a.executions
  have htotal : m.total = ((d.in_edges v).map fun e => e.2.executions).sum := by
    change (List.map Prod.snd (List.map _ _)).sum = _
    rw [List.map_map]
    rfl
  have hsub : ∀ e ∈ m.keys, e ∈ d.nodes.keys.toFinset.image fun u => (u, v) := by
    intro e he
    rw [PyDict.keys_mapVal] at he
    obtain ⟨x, hx, rfl⟩ := List.mem_map.mp he
    obtain ⟨hedge, hend⟩ := List.mem_filter.mp hx
    rw [Finset.mem_image]
    refine ⟨x.1.1, List.mem_toFinset.mpr (d.closed x.1 (List.mem_map_of_mem hedge)).1, ?_⟩
    rw [← of_decide_eq_true hend]
  have hval : ∀ u, m.val (u, v) = edgeExecutions d (u, v) := by
    intro u
    unfold m PyDict.val edgeExecutions
    rw [PyDict.get?_mapVal, PyDict.get?_filter]
    cases d.edges.get? (u, v) <;> simp [Option.filter]
  rw [← htotal, PyDict.total_eq_sum_of_subset hsub, Finset.sum_image]
  · exact Finset.sum_congr rfl fun u _ => hval u
  · intro u _ u' _ heq
    exact congrArg Prod.fst heq

/-- The rows into a block, source by source. -/
theorem sum_rows_by_source (w : EdgeRow → ℕ) (nodes : List ℕ) (rows : List EdgeRow) (v : ℕ) :
    ∑ u ∈ nodes.toFinset, ((rows.filter (EdgeRow.Joins u v)).map w).sum =
      ((rows.filter fun r => r.source ∈ nodes ∧ r.target = v).map w).sum := by
  induction rows with
  | nil => simp
  | cons row rows ih =>
    have hrow : ∀ u, (((row :: rows).filter (EdgeRow.Joins u v)).map w).sum =
        (if row.source = u then if row.target = v then w row else 0 else 0) +
          ((rows.filter (EdgeRow.Joins u v)).map w).sum := by
      intro u
      rw [List.filter_cons]
      unfold EdgeRow.Joins
      by_cases hu : row.source = u <;> by_cases hv : row.target = v <;> simp [hu, hv]
    rw [Finset.sum_congr rfl fun u _ => hrow u, Finset.sum_add_distrib, ih, Finset.sum_ite_eq,
      List.filter_cons]
    by_cases hu : row.source ∈ nodes <;> by_cases hv : row.target = v <;> simp [hu, hv]

/-! ## The laws -/

/-- Each edge that is left was executed, the edges into a block share its executions, and the
backward probabilities of these edges are their shares. -/
theorem backward_probs_are_a_distribution (tids : List ℕ) (full : FullDcfg) :
    ((∀ e ∈ full.edges.entries, ∀ i ∈ tids, i < e.2.executions.length) →
      ∃ d, build_target_tid_dcfg tids full = .ok d) ∧
    ∀ d, build_target_tid_dcfg tids full = .ok d →
      (∀ e ∈ d.edges.entries,
        0 < e.2.executions ∧ 0 < e.2.forward_prob ∧ e.2.forward_prob ≤ 1) ∧
      ∀ b, d.in_edges b ≠ [] →
        executionsOf d b = some ((d.in_edges b).map fun e => e.2.executions).sum ∧
        (∀ e ∈ d.in_edges b, 0 < e.2.backward_prob ∧ e.2.backward_prob ≤ 1) ∧
        ((d.in_edges b).map fun e => e.2.backward_prob).sum = 1 := by
  refine ⟨build_ok, fun d h => ⟨?_, ?_⟩⟩
  · intro e he
    have hpos := executions_pos h he
    rw [(prob_eq h he).1]
    exact ⟨hpos, call_prob_pos _ hpos, call_prob_le_one _ _⟩
  · intro b hb
    refine ⟨executionsOf_in_edges h hb, ?_, sum_backward_prob h hb⟩
    intro e he
    have hedge := List.mem_of_mem_filter he
    rw [(prob_eq h hedge).2]
    exact ⟨call_prob_pos _ (executions_pos h hedge), call_prob_le_one _ _⟩

/-- The executions of all rows between two known blocks are on the edge between them, and the
executions of all rows into a block that is still entered are on the block. -/
structure NothingLost (tids nodes : List ℕ) (rows : List EdgeRow) (d : Dcfg) : Prop where
  edges : ∀ u ∈ nodes, ∀ v ∈ nodes, edgeExecutions d (u, v) =
    ((rows.filter (EdgeRow.Joins u v)).map fun r => count_sum tids r.executions).sum
  nodes : ∀ v, d.in_edges v ≠ [] → executionsOf d v =
    some ((rows.filter fun r => r.source ∈ nodes ∧ r.target = v).map fun r =>
      count_sum tids r.executions).sum

/-- Nothing is lost just if no row that the chosen threads executed has another row between the
same two blocks behind it. -/
theorem nothing_is_lost_iff_none_replaced (tids : List ℕ) (json : DcfgJson)
    (bb_lines : List BBLine) (full : FullDcfg) (d : Dcfg)
    (hparse : parse_dcfg json bb_lines = .ok full)
    (hbuild : build_target_tid_dcfg tids full = .ok d) :
    NothingLost tids full.nodes.keys json.rows d ↔
      NoneReplaced tids full.nodes.keys json.rows := by
  rw [noneReplaced_iff]
  constructor
  · intro h u hu v hv
    rw [← getLast_eq_sum_iff, ← edgeExecutions_last hparse hbuild hu hv]
    exact h.edges u hu v hv
  · intro h
    have hedges : ∀ u ∈ full.nodes.keys, ∀ v ∈ full.nodes.keys, edgeExecutions d (u, v) =
        ((json.rows.filter (EdgeRow.Joins u v)).map fun r => count_sum tids r.executions).sum := by
      intro u hu v hv
      rw [edgeExecutions_last hparse hbuild hu hv]
      exact (getLast_eq_sum_iff _ _).mpr (h u hu v hv)
    refine ⟨hedges, fun v hv => ?_⟩
    obtain ⟨-, -, hkeys, -⟩ := build_entries hbuild
    have hmem : v ∈ full.nodes.keys := hkeys ▸ mem_nodes_of_in_edges hv
    rw [executionsOf_in_edges hbuild hv, sum_in_edges, hkeys, ← sum_rows_by_source]
    congr 1
    exact Finset.sum_congr rfl fun u hu => hedges u (List.mem_toFinset.mp hu) v hmem

/-- The block 1 jumps to the block 2 or falls through to it. -/
def branchAndFall (jumps falls : ℕ) : DcfgJson where
  edge_types := [(1, "DIRECT_CONDITIONAL_BRANCH"), (2, "FALL_THROUGH")]
  processes := [
    { images := some [⟨some [⟨1, [1, 2]⟩], some [1, 2]⟩]
      edges := some [⟨1, 2, 1, [jumps]⟩, ⟨1, 2, 2, [falls]⟩] }]

def branchLines (n : ℕ) : List BBLine :=
  [.block 1 "400000" n 8 n, .xdis "400000" "nop", .block 2 "400008" n 4 n, .xdis "400008" "nop"]

/-- The blocks of a loaded graph, and the executions of the edge and of its end. -/
def edgeOf (loaded : FullDcfg × Dcfg) : List ℕ × ℕ × Option ℕ :=
  (loaded.1.nodes.keys, edgeExecutions loaded.2 (1, 2), executionsOf loaded.2 2)

/-- The thread never jumps, and its five falls are all there. -/
theorem nothing_is_lost_without_jumps :
    ∃ full d, parse_dcfg (branchAndFall 0 5) (branchLines 5) = .ok full ∧
      build_target_tid_dcfg [0] full = .ok d ∧ edgeExecutions d (1, 2) = 5 ∧
      NothingLost [0] full.nodes.keys (branchAndFall 0 5).rows d := by
  have hload : (load [0] (branchAndFall 0 5) (branchLines 5)).map edgeOf =
      .ok ([1, 2], 5, some 5) := by decide +kernel
  obtain ⟨full, d, hparse, hbuild, hedgeOf⟩ := exists_of_load hload
  simp only [edgeOf, Prod.mk.injEq] at hedgeOf
  obtain ⟨hkeys, hedge, -⟩ := hedgeOf
  refine ⟨full, d, hparse, hbuild, hedge,
    (nothing_is_lost_iff_none_replaced [0] _ _ full d hparse hbuild).mpr ?_⟩
  rw [hkeys]
  decide

/-- Three jumps and five falls from the block 1 to the block 2: the edge and the block have
five executions, and not eight. -/
theorem the_jumps_before_the_falls_are_lost :
    ∃ full d, parse_dcfg (branchAndFall 3 5) (branchLines 8) = .ok full ∧
      build_target_tid_dcfg [0] full = .ok d ∧
      edgeExecutions d (1, 2) = 5 ∧ executionsOf d 2 = some 5 ∧
      (((branchAndFall 3 5).rows.filter (EdgeRow.Joins 1 2)).map fun r =>
        count_sum [0] r.executions).sum = 8 ∧
      ¬ NothingLost [0] full.nodes.keys (branchAndFall 3 5).rows d := by
  have hload : (load [0] (branchAndFall 3 5) (branchLines 8)).map edgeOf =
      .ok ([1, 2], 5, some 5) := by decide +kernel
  obtain ⟨full, d, hparse, hbuild, hedgeOf⟩ := exists_of_load hload
  simp only [edgeOf, Prod.mk.injEq] at hedgeOf
  obtain ⟨hkeys, hedge, hnode⟩ := hedgeOf
  have hrows : (((branchAndFall 3 5).rows.filter (EdgeRow.Joins 1 2)).map fun r =>
      count_sum [0] r.executions).sum = 8 := by decide
  refine ⟨full, d, hparse, hbuild, hedge, hnode, hrows, fun h => ?_⟩
  have hlost := h.edges 1 (by rw [hkeys]; decide) 2 (by rw [hkeys]; decide)
  rw [hedge, hrows] at hlost
  exact absurd hlost (by decide)

end ditto.base_analyzer
