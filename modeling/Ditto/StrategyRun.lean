-- The run of a strategy (ted_init, spf1 and gted of
-- apted_tree_index_impl.h). The matrix has the path to take for each pair of
-- subtrees, and a run puts distances in its place. The run reads the path of
-- a pair before it writes there, so every strategy of left and right paths
-- gives the distance. For a single node the result can be too small.
import Ditto.Lib.Rounding
import Ditto.PathDistance
import Mathlib.Data.List.Fold

namespace ditto.apted

open Rose TreeEdit bracket_notation tree_distance tree_index

/-! ## The model -/

/-- The turn of `ted_init` for two nodes. -/
def init_pair (c : CostModel LabelId ℚ) (t1 t2 : TreeIndex) (x : ℕ) (delta_ : ℕ → ℕ → ℚ) (y : ℕ) :
    ℕ → ℕ → ℚ :=
  let set := fun d => Function.update delta_ x (Function.update (delta_ x) y d)
  let size_x := (t1.prel x).size
  let size_y := (t2.prel y).size
  if size_x = 1 ∧ size_y = 1 then set 0
  else if size_x = 1 then set ((t2.prel y).subtree_ins_cost - c.ins (t2.prel y).label_id)
  else if size_y = 1 then set ((t1.prel x).subtree_del_cost - c.del (t1.prel x).label_id)
  else delta_

/-- The model of `ted_init`. -/
def ted_init (c : CostModel LabelId ℚ) (t1 t2 : TreeIndex) (s : Tables) : Tables :=
  { s with
    subproblem_counter_ := 0
    delta_ := (List.range t1.tree_size_).foldl (fun delta_ x =>
      (List.range t2.tree_size_).foldl (init_pair c t1 t2 x) delta_) s.delta_ }

/-- The loop of `spf1` over the nodes of a subtree: the best that a rename saves. -/
def best_rename (save : LabelId → ℚ) (ti : TreeIndex) (subtreeRootNode subtreeSize : ℕ) (cost : ℚ) :
    ℚ :=
  (List.range' subtreeRootNode subtreeSize).foldl (fun best i =>
    if save (ti.prel i).label_id < best then save (ti.prel i).label_id else best) cost

/-- The model of `spf1`. -/
def spf1 (c : CostModel LabelId ℚ) (t1 : TreeIndex) (subtreeRootNode1 : ℕ) (t2 : TreeIndex)
    (subtreeRootNode2 : ℕ) : ℚ :=
  let subtreeSize1 := (t1.prel subtreeRootNode1).size
  let subtreeSize2 := (t2.prel subtreeRootNode2).size
  let label1 := (t1.prel subtreeRootNode1).label_id
  let label2 := (t2.prel subtreeRootNode2).label_id
  if subtreeSize1 = 1 ∧ subtreeSize2 = 1 then
    let maxCost := c.del label1 + c.ins label2
    let renCost := c.ren label1 label2
    if renCost < maxCost then renCost else maxCost
  else if subtreeSize1 = 1 then
    let cost := (t2.prel subtreeRootNode2).subtree_ins_cost
    let maxCost := cost + c.del label1
    let cost := cost + best_rename (fun label2 => c.ren label1 label2 - c.ins label2) t2
      subtreeRootNode2 subtreeSize2 cost
    if cost < maxCost then cost else maxCost
  else if subtreeSize2 = 1 then
    let cost := (t1.prel subtreeRootNode1).subtree_del_cost
    let maxCost := cost + c.ins label2
    let cost := cost + best_rename (fun label1 => c.ren label1 label2 - c.del label1) t1
      subtreeRootNode1 subtreeSize1 cost
    if cost < maxCost then cost else maxCost
  else -1

/-- The path to the first leaf, to the last leaf or to another one. -/
inductive PathType where
  | left
  | right
  | inner
  deriving DecidableEq

/-- The model of `get_strategy_path_type`. -/
def get_strategy_path_type (pathIDWithPathIDOffset : ℤ) (pathIDOffset currentRootNodePreL
    currentSubtreeSize : ℕ) : PathType :=
  if pathIDWithPathIDOffset < 0 then .left
  else
    let pathID : ℤ := |pathIDWithPathIDOffset| - 1
    let pathID := if pathID ≥ pathIDOffset then pathID - pathIDOffset else pathID
    if pathID = currentRootNodePreL + currentSubtreeSize - 1 then .right else .inner

/-- A function for the subtrees of two nodes and the leaf at the end of a path in the first. -/
abbrev InnerPath :=
  TreeIndex → ℕ → TreeIndex → ℕ → ℕ → Bool → Tables → ℚ × Tables

/-- The function for a path: `spfL`, `spfR`, or `spfA` for an inner one. -/
def single_path (spfA : InnerPath) (c : CostModel LabelId ℚ) (type : PathType) (t1 : TreeIndex)
    (t1_current_subtree : ℕ) (t2 : TreeIndex) (t2_current_subtree pathID : ℕ) (treesSwapped : Bool)
    (s : Tables) : ℚ × Tables :=
  match type with
  | .left => spfL c t1 t1_current_subtree t2 t2_current_subtree treesSwapped s
  | .right => spfR c t1 t1_current_subtree t2 t2_current_subtree treesSwapped s
  | .inner => spfA t1 t1_current_subtree t2 t2_current_subtree pathID treesSwapped s

/-- The model of `gted`. The function `spfA` is a parameter. -/
def gted (spfA : InnerPath) (c : CostModel LabelId ℚ) (t1 t2 : TreeIndex) :
    ℕ → ℕ → ℕ → Tables → ℚ × Tables
  | 0, _, _, s => (0, s)
  | fuel + 1, currentSubtree1, currentSubtree2, s =>
    let subtreeSize1 := (t1.prel currentSubtree1).size
    let subtreeSize2 := (t2.prel currentSubtree2).size
    if subtreeSize1 = 1 ∨ subtreeSize2 = 1 then (spf1 c t1 currentSubtree1 t2 currentSubtree2, s)
    else
      let strategyPathID := truncate (s.delta_ currentSubtree1 currentSubtree2)
      let currentPathNode := strategyPathID.natAbs - 1
      let pathIDOffset := t1.tree_size_
      if currentPathNode < pathIDOffset then
        let type := get_strategy_path_type strategyPathID pathIDOffset currentSubtree1 subtreeSize1
        let s := climb t1 (fun x => (t1.prel x).parent ≥ currentSubtree1)
          (fun s child => (gted spfA c t1 t2 fuel child currentSubtree2 s).2)
          currentPathNode currentPathNode s
        single_path spfA c type t1 currentSubtree1 t2 currentSubtree2 currentPathNode false s
      else
        let currentPathNode := currentPathNode - pathIDOffset
        let type := get_strategy_path_type strategyPathID pathIDOffset currentSubtree2 subtreeSize2
        let s := climb t2 (fun x => (t2.prel x).parent ≥ currentSubtree2)
          (fun s child => (gted spfA c t1 t2 fuel currentSubtree1 child s).2)
          currentPathNode currentPathNode s
        single_path spfA c type t2 currentSubtree2 t1 currentSubtree1 currentPathNode true s

/-! ## The order of the trees -/

variable {c : CostModel LabelId ℚ} {t₁ t₂ : Rose LabelId} {ti₁ ti₂ : TreeIndex}
  {treesSwapped : Bool} {e f g x y : Entry LabelId} {s s' : Tables}

theorem right_true : Right c true s f e ↔ Right c false s e f := by
  unfold Right
  rw [ordered_true, ordered_false, CostModel.dist_flip]
  rfl

/-! ## Single nodes -/

theorem foldr_min_min (xs : List ℚ) (p q : ℚ) :
    min (xs.foldr min p) q = min p (xs.foldr min q) := by
  induction xs with
  | nil => rfl
  | cons x xs ih => rw [List.foldr_cons, List.foldr_cons, min_assoc, ih, min_left_comm]

theorem labels_eq {t : Rose LabelId} {ti : TreeIndex} (hti : Describes c t ti)
    (he : e ∈ (root t).nodes) :
    (List.range' e.pre e.tree.size).map (fun i => (ti.prel i).label_id) = e.tree.values := by
  obtain ⟨hpre, hvalues⟩ := entries_preorder.1 e.tree e.parent e.pre e.first
  rw [← hpre, ← hvalues, List.map_map]
  refine List.map_congr_left fun x hx => ?_
  simp only [Function.comp_apply]
  rw [hti.prel x (mem_nodes_trans he hx)]
  rfl

theorem best_rename_eq {t : Rose LabelId} {ti : TreeIndex} (hti : Describes c t ti)
    (he : e ∈ (root t).nodes) (save : LabelId → ℚ) (cost : ℚ) :
    best_rename save ti e.pre e.tree.size cost = (e.tree.values.map save).foldr min cost := by
  have hmin : best_rename save ti e.pre e.tree.size cost =
      ((List.range' e.pre e.tree.size).map fun i => save (ti.prel i).label_id).foldl min cost := by
    rw [best_rename, List.foldl_map]
    congr 1
    funext best i
    rw [← min_def_lt, min_comm]
  rw [hmin, List.foldl_eq_foldr, ← labels_eq hti he, List.map_map]
  rfl

theorem tree_of_size_one {t : Rose LabelId} (h : t.size = 1) : t = .node t.value [] := by
  obtain ⟨a, cs⟩ := t
  cases cs with
  | nil => rfl
  | cons u us =>
    have := u.size_pos
    simp only [size_node, forestSize_cons] at h
    omega

theorem forestValues_singleton (t : Rose LabelId) : forestValues [t] = t.values :=
  List.append_nil _

section spf1

variable (h₁ : Describes c t₁ ti₁) (h₂ : Describes c t₂ ti₂) (he : e ∈ (root t₁).nodes)
  (hf : f ∈ (root t₂).nodes)

include h₁ h₂ he hf

/-- What `spf1` returns when the first tree is a single node. -/
theorem spf1_first (hsize : e.tree.size = 1) (hsize' : f.tree.size ≠ 1) :
    spf1 c ti₁ e.pre ti₂ f.pre = min (c.dist [e.tree] [f.tree]) (2 * c.insAll [f.tree]) := by
  have hbest := best_rename_eq h₂ hf (fun b => c.ren e.tree.value b - c.ins b) (c.insAll [f.tree])
  have hspf1 : spf1 c ti₁ e.pre ti₂ f.pre =
      min (c.insAll [f.tree] + (f.tree.values.map fun b => c.ren e.tree.value b - c.ins b).foldr min
        (c.insAll [f.tree])) (c.insAll [f.tree] + c.del e.tree.value) := by
    unfold spf1
    rw [h₁.prel e he, h₂.prel f hf]
    simp only [preOf, hsize, hsize', and_false, if_false, if_true]
    rw [← min_def_lt, hbest]
  rw [hspf1, min_add_add_left, foldr_min_min, tree_of_size_one hsize, CostModel.dist_leaf,
    forestValues_singleton, two_mul, min_add_add_left, min_comm]
  rfl

theorem spf1_second (hsize : e.tree.size ≠ 1) (hsize' : f.tree.size = 1) :
    spf1 c ti₁ e.pre ti₂ f.pre = min (c.dist [e.tree] [f.tree]) (2 * c.delAll [e.tree]) := by
  have hbest := best_rename_eq h₁ he (fun a => c.ren a f.tree.value - c.del a) (c.delAll [e.tree])
  have hspf1 : spf1 c ti₁ e.pre ti₂ f.pre =
      min (c.delAll [e.tree] + (e.tree.values.map fun a => c.ren a f.tree.value - c.del a).foldr min
        (c.delAll [e.tree])) (c.delAll [e.tree] + c.ins f.tree.value) := by
    unfold spf1
    rw [h₁.prel e he, h₂.prel f hf]
    simp only [preOf, hsize, hsize', false_and, if_false, if_true]
    rw [← min_def_lt, hbest]
  rw [hspf1, min_add_add_left, foldr_min_min, tree_of_size_one hsize', ← CostModel.dist_flip,
    CostModel.dist_leaf, forestValues_singleton, two_mul, min_comm]
  exact (min_add_add_left _ _ _).symm

theorem spf1_both (hsize : e.tree.size = 1) (hsize' : f.tree.size = 1) :
    spf1 c ti₁ e.pre ti₂ f.pre = c.dist [e.tree] [f.tree] := by
  rw [tree_of_size_one hsize, tree_of_size_one hsize', CostModel.dist_leaf]
  unfold spf1
  rw [h₁.prel e he, h₂.prel f hf]
  simp only [preOf, hsize, hsize', and_self, if_true]
  rw [← min_def_lt]
  simp [CostModel.insAll, forestValues, values, ← min_add_add_left, add_comm]

end spf1

/-! ## The start -/

/-- What `ted_init` makes of the entry of two nodes. -/
def initValue (c : CostModel LabelId ℚ) (t1 t2 : TreeIndex) (x y : ℕ) (d : ℚ) : ℚ :=
  if (t1.prel x).size = 1 ∧ (t2.prel y).size = 1 then 0
  else if (t1.prel x).size = 1 then (t2.prel y).subtree_ins_cost - c.ins (t2.prel y).label_id
  else if (t2.prel y).size = 1 then (t1.prel x).subtree_del_cost - c.del (t1.prel x).label_id
  else d

theorem init_pair_apply (c : CostModel LabelId ℚ) (t1 t2 : TreeIndex) (x y : ℕ)
    (delta_ : ℕ → ℕ → ℚ) (x' y' : ℕ) : init_pair c t1 t2 x delta_ y x' y' =
      if x' = x ∧ y' = y then initValue c t1 t2 x y (delta_ x y) else delta_ x' y' := by
  rw [← update_update]
  unfold init_pair initValue
  split_ifs <;> simp

theorem init_row_apply (c : CostModel LabelId ℚ) (t1 t2 : TreeIndex) (x m : ℕ)
    (delta_ : ℕ → ℕ → ℚ) (x' y' : ℕ) :
    (List.range m).foldl (init_pair c t1 t2 x) delta_ x' y' =
      if x' = x ∧ y' < m then initValue c t1 t2 x y' (delta_ x y') else delta_ x' y' := by
  induction m with
  | zero => simp
  | succ m ih =>
    rw [List.range_succ, List.foldl_append, List.foldl_cons, List.foldl_nil, init_pair_apply]
    by_cases hm : x' = x ∧ y' = m
    · obtain ⟨rfl, rfl⟩ := hm
      have hold := ih
      rw [if_neg (by omega)] at hold
      rw [if_pos ⟨rfl, rfl⟩, if_pos (by omega), hold]
    · rw [if_neg hm, ih]
      exact if_congr (by omega) rfl rfl

theorem init_rows_apply (c : CostModel LabelId ℚ) (t1 t2 : TreeIndex) (n m : ℕ)
    (delta_ : ℕ → ℕ → ℚ) (x' y' : ℕ) :
    (List.range n).foldl (fun delta_ x => (List.range m).foldl (init_pair c t1 t2 x) delta_) delta_
      x' y' = if x' < n ∧ y' < m then initValue c t1 t2 x' y' (delta_ x' y') else delta_ x' y' := by
  induction n with
  | zero => simp
  | succ n ih =>
    rw [List.range_succ, List.foldl_append, List.foldl_cons, List.foldl_nil, init_row_apply]
    by_cases hn : x' = n ∧ y' < m
    · obtain ⟨rfl, hy⟩ := hn
      have hold := ih
      rw [if_neg (by omega)] at hold
      rw [if_pos ⟨rfl, hy⟩, if_pos (by omega), hold]
    · rw [if_neg hn, ih]
      exact if_congr (by omega) rfl rfl

theorem children_of_size_one {t : Rose LabelId} (h : t.size = 1) : t.children = [] := by
  rw [tree_of_size_one h]
  rfl

theorem insAll_children (c : CostModel LabelId ℚ) (t : Rose LabelId) :
    c.insAll [t] - c.ins t.value = c.insAll t.children := by
  obtain ⟨a, cs⟩ := t
  simp [children, value]

theorem delAll_children (c : CostModel LabelId ℚ) (t : Rose LabelId) :
    c.delAll [t] - c.del t.value = c.delAll t.children := by
  obtain ⟨a, cs⟩ := t
  simp [children, value]

/-- `ted_init` puts in the distances of pairs with a single node and leaves the other entries. -/
theorem ted_init_spec (h₁ : Describes c t₁ ti₁) (h₂ : Describes c t₂ ti₂)
    (he : e ∈ (root t₁).nodes) (hf : f ∈ (root t₂).nodes) :
    if e.tree.size = 1 ∨ f.tree.size = 1 then Right c false (ted_init c ti₁ ti₂ s) e f
    else (ted_init c ti₁ ti₂ s).delta_ e.pre f.pre = s.delta_ e.pre f.pre := by
  have hpos₁ := e.tree.size_pos
  have hpos₂ := f.tree.size_pos
  have hle₁ := (nodes_bounds he).2.1
  have hle₂ := (nodes_bounds hf).2.1
  simp only [root, Nat.zero_add] at hle₁ hle₂
  have hentry : (ted_init c ti₁ ti₂ s).delta_ e.pre f.pre =
      initValue c ti₁ ti₂ e.pre f.pre (s.delta_ e.pre f.pre) := by
    unfold ted_init
    rw [h₁.tree_size, h₂.tree_size]
    simp only [init_rows_apply]
    rw [if_pos (by omega)]
  have hright : Right c false (ted_init c ti₁ ti₂ s) e f ↔
      (ted_init c ti₁ ti₂ s).delta_ e.pre f.pre = c.dist e.tree.children f.tree.children := Iff.rfl
  rw [hright, hentry, initValue, h₁.prel e he, h₂.prel f hf]
  simp only [preOf]
  by_cases hsize₁ : e.tree.size = 1 <;> by_cases hsize₂ : f.tree.size = 1
  · simp [hsize₁, hsize₂, children_of_size_one, CostModel.dist_nil_right]
  · simp [hsize₁, hsize₂, children_of_size_one, CostModel.dist_nil_left, insAll_children]
  · simp [hsize₁, hsize₂, children_of_size_one, CostModel.dist_nil_right, delAll_children]
  · simp [hsize₁, hsize₂]

/-! ## Paths -/

/-- A left or right path of a strategy: it ends at the first leaf if its number is negative, and
at the last one if not. -/
structure IsPathTo (e g : Entry LabelId) (id : ℤ) : Prop where
  leaf : g.tree.size = 1
  left : id < 0 → g.first = e.first
  right : 0 ≤ id → g.pre = e.pre + e.tree.size - 1

theorem isPathTo_iff {e g : Entry LabelId} {id : ℤ} : IsPathTo e g id ↔ g.tree.size = 1 ∧
    (id < 0 → g.first = e.first) ∧ (0 ≤ id → g.pre = e.pre + e.tree.size - 1) :=
  ⟨fun h => ⟨h.leaf, h.left, h.right⟩, fun h => ⟨h.1, h.2.1, h.2.2⟩⟩

/-- A path for two subtrees is in one of them. The numbers of the second tree come after the
numbers of the first. -/
def ValidPath (t₁ : Rose LabelId) (e f : Entry LabelId) (id : ℤ) : Prop :=
  (∃ g ∈ e.nodes, IsPathTo e g id ∧ id.natAbs = g.pre + 1) ∨
    ∃ g ∈ f.nodes, IsPathTo f g id ∧ id.natAbs = t₁.size + g.pre + 1

/-- What a function for a path has done: it returns the distance, and the entries of all pairs
below the two nodes are right. -/
structure Done (c : CostModel LabelId ℚ) (t₁ t₂ : Rose LabelId) (treesSwapped : Bool)
    (e f : Entry LabelId) (s : Tables) (r : ℚ × Tables) : Prop where
  dist : r.1 = (ordered c treesSwapped).dist [e.tree] [f.tree]
  right : ∀ x ∈ e.nodes, ∀ y ∈ f.nodes, Right c treesSwapped r.2 x y
  same : ∀ x ∈ (root t₁).nodes, ∀ y ∈ (root t₂).nodes, ¬ (x ∈ e.nodes ∧ y ∈ f.nodes) →
    r.2.delta treesSwapped x.pre y.pre = s.delta treesSwapped x.pre y.pre

/-- The pairs with a node beside the path to `g` are right. -/
def BesideRight (c : CostModel LabelId ℚ) (treesSwapped : Bool) (g e f : Entry LabelId) (s : Tables) :
    Prop :=
  ∀ x ∈ e.nodes, g ∉ x.nodes → ∀ y ∈ f.nodes, Right c treesSwapped s x y

theorem pathDist_done (side : Side) {u_type : ℚ → ℚ} (h₁ : Describes c t₁ ti₁)
    (h₂ : Describes c t₂ ti₂) (hu : u_type = id ∨ u_type = toSingle)
    (he : e ∈ (root t₁).nodes) (hf : f ∈ (root t₂).nodes)
    (hfits : Fits (ordered c treesSwapped) [e.tree] [f.tree])
    (hfirst : side.first t₁.size g = side.first t₁.size e)
    (hbeside : BesideRight c treesSwapped g e f s) :
    Done c t₁ t₂ treesSwapped e f s (pathDist u_type side c ti₁ e.pre ti₂ f.pre treesSwapped s) := by
  obtain ⟨hdist, hsolved, -⟩ := pathDist_spec (s := s) side h₁ h₂ hu he hf hfits
    fun x hx hpath y hy => hbeside x hx (fun hgx => hpath ⟨hx, by
      have := (node_bounds side he hx).1
      have := (node_bounds side (mem_nodes_trans he hx) hgx).1
      omega⟩) y hy
  refine ⟨hdist, hsolved.right, fun x hx y hy hne => hsolved.same x hx y hy ?_⟩
  exact fun hpath => hne ⟨hpath.1.1, hpath.2⟩

theorem single_path_done (spfA : InnerPath) (treesSwapped : Bool) (h₁ : Describes c t₁ ti₁)
    (h₂ : Describes c t₂ ti₂) (he : e ∈ (root t₁).nodes) (hf : f ∈ (root t₂).nodes)
    (hfits : Fits (ordered c treesSwapped) [e.tree] [f.tree]) {id : ℤ} (hg : g ∈ e.nodes)
    (hpath : IsPathTo e g id) {offset : ℕ}
    (hid : (id.natAbs = g.pre + 1 ∧ g.pre < offset) ∨ id.natAbs = offset + g.pre + 1)
    (hbeside : BesideRight c treesSwapped g e f s) :
    Done c t₁ t₂ treesSwapped e f s (single_path spfA c
      (get_strategy_path_type id offset e.pre e.tree.size) ti₁ e.pre ti₂ f.pre g.pre treesSwapped s) := by
  have hbounds := nodes_bounds hg
  have hroot := (nodes_bounds he).2.1
  have hleaf := hpath.leaf
  have hpos := e.tree.size_pos
  simp only [root, Nat.zero_add] at hroot
  unfold get_strategy_path_type
  by_cases hneg : id < 0
  · rw [if_pos hneg]
    exact pathDist_done .left h₁ h₂ (.inl rfl) he hf hfits (hpath.left hneg) hbeside
  · rw [if_neg hneg]
    have hpre : (if |id| - 1 ≥ (offset : ℤ) then |id| - 1 - offset else |id| - 1) = (g.pre : ℤ) := by
      rw [Int.abs_eq_natAbs]
      split_ifs <;> omega
    simp only [hpre]
    have hright := hpath.right (not_lt.mp hneg)
    rw [if_pos (by omega)]
    refine pathDist_done .right h₁ h₂ (.inr rfl) he hf hfits ?_ hbeside
    simp only [Side.first]
    omega

/-! ## Regions of the matrix -/

/-- Pairs of nodes. -/
abbrev Region := Set (Entry LabelId × Entry LabelId)

/-- The pairs of two subtrees. -/
def region (e f : Entry LabelId) : Region := {p | p.1 ∈ e.nodes ∧ p.2 ∈ f.nodes}

/-- Before a run a pair has its distance if one of its trees is a single node, and a path of
the strategy if none is. -/
def Ready (c : CostModel LabelId ℚ) (t₁ : Rose LabelId) (D : Region) (s : Tables) : Prop :=
  ∀ p ∈ D, if p.1.tree.size = 1 ∨ p.2.tree.size = 1 then Right c false s p.1 p.2
    else ∃ id : ℤ, s.delta_ p.1.pre p.2.pre = id ∧ ValidPath t₁ p.1 p.2 id

/-- After a run all pairs of a region are right, and no other entry has changed. -/
structure Finished (c : CostModel LabelId ℚ) (t₁ t₂ : Rose LabelId) (D : Region) (s s' : Tables) :
    Prop where
  right : ∀ p ∈ D, Right c false s' p.1 p.2
  same : ∀ p ∈ region (root t₁) (root t₂), p ∉ D → s'.delta_ p.1.pre p.2.pre = s.delta_ p.1.pre p.2.pre

variable {D D' : Region} {s₁ : Tables}

theorem region_subset (he : e ∈ (root t₁).nodes) (hf : f ∈ (root t₂).nodes) :
    region e f ⊆ region (root t₁) (root t₂) :=
  fun _ hp => ⟨mem_nodes_trans he hp.1, mem_nodes_trans hf hp.2⟩

theorem Ready.mono (h : Ready c t₁ D s) (hsub : D' ⊆ D) : Ready c t₁ D' s :=
  fun p hp => h p (hsub hp)

/-- A run somewhere else does not take the paths away. -/
theorem Ready.of_finished (h : Ready c t₁ D s) (hD : D ⊆ region (root t₁) (root t₂))
    (hrun : Finished c t₁ t₂ D' s s') (hdisjoint : ∀ p ∈ D, p ∉ D') : Ready c t₁ D s' := by
  intro p hp
  have hsame := hrun.same p (hD hp) (hdisjoint p hp)
  have hold := h p hp
  split_ifs at hold ⊢
  · exact hsame.trans hold
  · rwa [hsame]

theorem Finished.trans (h : Finished c t₁ t₂ D s s₁) (h' : Finished c t₁ t₂ D' s₁ s')
    (hD : D ⊆ region (root t₁) (root t₂)) : Finished c t₁ t₂ (D ∪ D') s s' where
  right p hp := by
    by_cases hp' : p ∈ D'
    · exact h'.right p hp'
    · have hpD : p ∈ D := hp.resolve_right hp'
      exact (h'.same p (hD hpD) hp').trans (h.right p hpD)
  same p hp hne :=
    (h'.same p hp fun hp' => hne (.inr hp')).trans (h.same p hp fun hpD => hne (.inl hpD))

/-- The runs for the trees beside a path, one after the other. -/
theorem Finished.visit_all {R : Entry LabelId → Region} (visit : Tables → ℕ → Tables)
    (os : List (Entry LabelId)) (hR : ∀ o ∈ os, R o ⊆ region (root t₁) (root t₂))
    (hdisjoint : os.Pairwise fun o o' => ∀ p ∈ R o, p ∉ R o')
    (hready : ∀ o ∈ os, Ready c t₁ (R o) s)
    (hvisit : ∀ o ∈ os, ∀ s, Ready c t₁ (R o) s → Finished c t₁ t₂ (R o) s (visit s o.pre)) :
    Finished c t₁ t₂ {p | ∃ o ∈ os, p ∈ R o} s ((os.map Entry.pre).foldl visit s) := by
  induction os generalizing s with
  | nil => exact ⟨fun p hp => absurd hp (by simp), fun _ _ _ => rfl⟩
  | cons o os ih =>
    have hfirst := hvisit o List.mem_cons_self s (hready o List.mem_cons_self)
    obtain ⟨hhead, htail⟩ := List.pairwise_cons.mp hdisjoint
    have hrest := ih (s := visit s o.pre) (fun o' ho' => hR o' (List.mem_cons_of_mem _ ho')) htail
      (fun o' ho' => (hready o' (List.mem_cons_of_mem _ ho')).of_finished
        (hR o' (List.mem_cons_of_mem _ ho')) hfirst fun p hp hp' => hhead o' ho' p hp' hp)
      fun o' ho' => hvisit o' (List.mem_cons_of_mem _ ho')
    have hall := hfirst.trans hrest (hR o List.mem_cons_self)
    have hset : R o ∪ {p | ∃ o ∈ os, p ∈ R o} = {p | ∃ o' ∈ o :: os, p ∈ R o'} := by
      ext p
      simp
    rwa [hset] at hall

/-! ## The run -/

theorem disjoint_region_left {o o' : Entry LabelId} (h : ∀ x ∈ o.nodes, x ∉ o'.nodes) :
    ∀ p ∈ region o f, p ∉ region o' f :=
  fun p hp hp' => h p.1 hp.1 hp'.1

theorem disjoint_region_right {o o' : Entry LabelId} (h : ∀ x ∈ o.nodes, x ∉ o'.nodes) :
    ∀ p ∈ region e o, p ∉ region e o' :=
  fun p hp hp' => h p.2 hp.2 hp'.2

/-- The loop of `gted` goes up to the root of the subtree. -/
theorem climb_to_root {t : Rose LabelId} {ti : TreeIndex} (hti : Describes c t ti)
    {os : List (Entry LabelId)} (hpath : Above e g os) (he : e ∈ (root t).nodes)
    (visit : Tables → ℕ → Tables) (s : Tables) :
    climb ti (fun x => (ti.prel x).parent ≥ e.pre) visit g.pre g.pre s =
      (os.map Entry.pre).foldl visit s := by
  have hmore : ∀ x ∈ e.nodes, x ≠ e → decide ((ti.prel x.pre).parent ≥ (e.pre : ℤ)) = true := by
    intro x hx hne
    obtain ⟨p, hp, hle, -⟩ := exists_parent hx hne
    rw [hti.prel x (mem_nodes_trans he hx)]
    simp [preOf, hp, hle]
  obtain ⟨left, -, hclimb⟩ := climb_above (fun x => decide ((ti.prel x).parent ≥ (e.pre : ℤ))) visit
    hti hpath he hmore (Nat.sub_le g.pre e.pre) s
  have hstop : ¬ (ti.prel e.pre).parent ≥ (e.pre : ℤ) := by
    rw [hti.prel e he]
    simp only [preOf]
    cases hparent : e.parent with
    | none =>
      simp only [Option.elim_none]
      omega
    | some p =>
      have := parent_lt he hparent
      simp only [Option.elim_some]
      omega
  refine hclimb.trans ?_
  cases left with
  | zero => rfl
  | succ left => rw [climb, if_neg (by simpa using hstop)]

/-- The pairs with a node beside the path are right after the runs for the trees beside it. -/
theorem exists_beside {os : List (Entry LabelId)} (hpath : Above e g os) (hleaf : g.tree.size = 1)
    (hx : x ∈ e.nodes) (hgx : g ∉ x.nodes) : ∃ o ∈ os, x ∈ o.nodes := by
  rcases hpath.cover hx with h | h | h
  · exact absurd h hgx
  · rw [eq_of_mem_leaf hleaf h] at hgx
    exact absurd (mem_nodes_self g) hgx
  · exact h

section Gted

variable {spfA : InnerPath}

theorem prel_size {t : Rose LabelId} {ti : TreeIndex} (hti : Describes c t ti)
    (he : e ∈ (root t).nodes) : (ti.prel e.pre).size = e.tree.size := by
  rw [hti.prel e he]
  rfl

/-- A part of the region and then all of it is a run of the region. -/
theorem Finished.of_subset (h : Finished c t₁ t₂ D s s₁) (h' : Finished c t₁ t₂ D' s₁ s')
    (hsub : D ⊆ D') (hD' : D' ⊆ region (root t₁) (root t₂)) : Finished c t₁ t₂ D' s s' := by
  have hall := h.trans h' (hsub.trans hD')
  rwa [Set.union_eq_self_of_subset_left hsub] at hall

section Step

variable (h₁ : Describes c t₁ ti₁) (h₂ : Describes c t₂ ti₂) (he : e ∈ (root t₁).nodes)
  (hf : f ∈ (root t₂).nodes) (hfits : Fits c [e.tree] [f.tree])
  (hready : Ready c t₁ (region e f) s) (hsize : e.tree.size ≠ 1) (hsize' : f.tree.size ≠ 1)
  {id : ℤ} (hid : truncate (s.delta_ e.pre f.pre) = id) (fuel : ℕ)

include h₁ h₂ he hf hfits hready hsize hsize' hid

/-- The step for a path in the first tree. -/
theorem gted_first (hg : g ∈ e.nodes) (hpath : IsPathTo e g id) (hpre : id.natAbs = g.pre + 1)
    (ih : ∀ o ∈ e.nodes, o.tree.size < e.tree.size → ∀ s, Ready c t₁ (region o f) s →
      Finished c t₁ t₂ (region o f) s (gted spfA c ti₁ ti₂ fuel o.pre f.pre s).2) :
    Finished c t₁ t₂ (region e f) s (gted spfA c ti₁ ti₂ (fuel + 1) e.pre f.pre s).2 ∧
      (gted spfA c ti₁ ti₂ (fuel + 1) e.pre f.pre s).1 = c.dist [e.tree] [f.tree] := by
  obtain ⟨os, hos⟩ := exists_above hg
  have hbounds := nodes_bounds (mem_nodes_trans he hg)
  have hpos := g.tree.size_pos
  simp only [root, Nat.zero_add] at hbounds
  have hsubset : ∀ o ∈ os, region o f ⊆ region e f := fun o ho p hp =>
    ⟨mem_nodes_trans (hos.mem_of_mem ho).1 hp.1, hp.2⟩
  have hvisited := Finished.visit_all (R := fun o => region o f)
    (fun s child => (gted spfA c ti₁ ti₂ fuel child f.pre s).2) os
    (fun o ho => (hsubset o ho).trans (region_subset he hf))
    (hos.pairwise.imp disjoint_region_left) (fun o ho => hready.mono (hsubset o ho))
    fun o ho => ih o (hos.mem_of_mem ho).1 (hos.mem_of_mem ho).2
  set s₁ := (os.map Entry.pre).foldl
    (fun s child => (gted spfA c ti₁ ti₂ fuel child f.pre s).2) s with hs₁
  have hbeside : BesideRight c false g e f s₁ := by
    intro x hx hgx y hy
    obtain ⟨o, ho, hxo⟩ := exists_beside hos hpath.leaf hx hgx
    exact hvisited.right (x, y) ⟨o, ho, hxo, hy⟩
  have hdone := single_path_done (s := s₁) spfA false h₁ h₂ he hf hfits hg hpath
    (.inl ⟨hpre, show g.pre < t₁.size by omega⟩) hbeside
  have hgted : gted spfA c ti₁ ti₂ (fuel + 1) e.pre f.pre s = single_path spfA c
      (get_strategy_path_type id t₁.size e.pre e.tree.size) ti₁ e.pre ti₂ f.pre g.pre false s₁ := by
    rw [gted]
    simp only [prel_size h₁ he, prel_size h₂ hf, hid, hpre, Nat.add_sub_cancel, h₁.tree_size]
    rw [if_neg (by tauto), if_pos (by omega), climb_to_root h₁ hos he]
  rw [hgted]
  refine ⟨hvisited.of_subset ⟨fun p hp => hdone.right p.1 hp.1 p.2 hp.2, fun p hp hne =>
    hdone.same p.1 hp.1 p.2 hp.2 hne⟩ ?_ (region_subset he hf), hdone.dist⟩
  rintro p ⟨o, ho, hp⟩
  exact hsubset o ho hp

/-- The step for a path in the second tree: the trees are swapped for it. -/
theorem gted_second (hg : g ∈ f.nodes) (hpath : IsPathTo f g id)
    (hpre : id.natAbs = t₁.size + g.pre + 1)
    (ih : ∀ o ∈ f.nodes, o.tree.size < f.tree.size → ∀ s, Ready c t₁ (region e o) s →
      Finished c t₁ t₂ (region e o) s (gted spfA c ti₁ ti₂ fuel e.pre o.pre s).2) :
    Finished c t₁ t₂ (region e f) s (gted spfA c ti₁ ti₂ (fuel + 1) e.pre f.pre s).2 ∧
      (gted spfA c ti₁ ti₂ (fuel + 1) e.pre f.pre s).1 = c.dist [e.tree] [f.tree] := by
  obtain ⟨os, hos⟩ := exists_above hg
  have hsubset : ∀ o ∈ os, region e o ⊆ region e f := fun o ho p hp =>
    ⟨hp.1, mem_nodes_trans (hos.mem_of_mem ho).1 hp.2⟩
  have hvisited := Finished.visit_all (R := fun o => region e o)
    (fun s child => (gted spfA c ti₁ ti₂ fuel e.pre child s).2) os
    (fun o ho => (hsubset o ho).trans (region_subset he hf))
    (hos.pairwise.imp disjoint_region_right) (fun o ho => hready.mono (hsubset o ho))
    fun o ho => ih o (hos.mem_of_mem ho).1 (hos.mem_of_mem ho).2
  set s₁ := (os.map Entry.pre).foldl
    (fun s child => (gted spfA c ti₁ ti₂ fuel e.pre child s).2) s with hs₁
  have hbeside : BesideRight c true g f e s₁ := by
    intro y hy hgy x hx
    obtain ⟨o, ho, hyo⟩ := exists_beside hos hpath.leaf hy hgy
    exact right_true.mpr (hvisited.right (x, y) ⟨o, ho, hx, hyo⟩)
  have hdone := single_path_done (s := s₁) spfA true h₂ h₁ hf he hfits.flip hg hpath (.inr hpre) hbeside
  have hgted : gted spfA c ti₁ ti₂ (fuel + 1) e.pre f.pre s = single_path spfA c
      (get_strategy_path_type id t₁.size f.pre f.tree.size) ti₂ f.pre ti₁ e.pre g.pre true s₁ := by
    rw [gted]
    simp only [prel_size h₁ he, prel_size h₂ hf, hid, hpre, Nat.add_sub_cancel, h₁.tree_size,
      Nat.add_sub_cancel_left]
    rw [if_neg (by tauto), if_neg (by omega), climb_to_root h₂ hos hf]
  rw [hgted]
  refine ⟨hvisited.of_subset ⟨fun p hp => right_true.mp (hdone.right p.2 hp.2 p.1 hp.1),
    fun p hp hne => hdone.same p.2 hp.2 p.1 hp.1 fun h => hne ⟨h.2, h.1⟩⟩ ?_
    (region_subset he hf), ?_⟩
  · rintro p ⟨o, ho, hp⟩
    exact hsubset o ho hp
  · rw [hdone.dist, ordered_true, CostModel.dist_flip]

end Step

/-- A run for two subtrees makes all their pairs right and touches no other pair. -/
theorem gted_spec (h₁ : Describes c t₁ ti₁) (h₂ : Describes c t₂ ti₂)
    {fuel : ℕ} (he : e ∈ (root t₁).nodes) (hf : f ∈ (root t₂).nodes)
    (hfuel : e.tree.size + f.tree.size ≤ fuel) (hfits : Fits c [e.tree] [f.tree])
    (hready : Ready c t₁ (region e f) s) :
    Finished c t₁ t₂ (region e f) s (gted spfA c ti₁ ti₂ fuel e.pre f.pre s).2 ∧
      (e.tree.size ≠ 1 → f.tree.size ≠ 1 →
        (gted spfA c ti₁ ti₂ fuel e.pre f.pre s).1 = c.dist [e.tree] [f.tree]) := by
  induction fuel generalizing e f s with
  | zero =>
    have := e.tree.size_pos
    omega
  | succ fuel ih =>
    by_cases hsingle : e.tree.size = 1 ∨ f.tree.size = 1
    · -- Nothing is written: all pairs are pairs with a single node.
      rw [gted]
      simp only [prel_size h₁ he, prel_size h₂ hf, if_pos hsingle]
      refine ⟨⟨fun p hp => ?_, fun _ _ _ => rfl⟩, fun hne hne' => absurd hsingle (by tauto)⟩
      have hp' := hready p hp
      rcases hsingle with h | h
      · rwa [if_pos (.inl (by rw [eq_of_mem_leaf h hp.1, h]))] at hp'
      · rwa [if_pos (.inr (by rw [eq_of_mem_leaf h hp.2, h]))] at hp'
    · obtain ⟨id, hid, hvalid⟩ := by
        simpa only [if_neg hsingle] using hready (e, f) ⟨mem_nodes_self e, mem_nodes_self f⟩
      rw [not_or] at hsingle
      have htrunc : truncate (s.delta_ e.pre f.pre) = id := by
        rw [hid]
        exact truncate_intCast id
      rcases hvalid with ⟨g, hg, hpath, hpre⟩ | ⟨g, hg, hpath, hpre⟩
      · have hstep := gted_first h₁ h₂ he hf hfits hready hsingle.1 hsingle.2 htrunc fuel
          hg hpath hpre fun o ho hlt s hs => (ih (mem_nodes_trans he ho) hf (by omega)
            (hfits.node ho (mem_nodes_self f)) hs).1
        exact ⟨hstep.1, fun _ _ => hstep.2⟩
      · have hstep := gted_second h₁ h₂ he hf hfits hready hsingle.1 hsingle.2 htrunc fuel
          hg hpath hpre fun o ho hlt s hs => (ih he (mem_nodes_trans hf ho) (by omega)
            (hfits.node (mem_nodes_self e) ho) hs).1
        exact ⟨hstep.1, fun _ _ => hstep.2⟩

end Gted

/-! ## The program -/

/-- For the indexes of two parsed trees, a single node against a subtree gives the distance, or
twice the weight of the subtree where that is less. -/
theorem spf1_single_node (n₁ n₂ : Node) (ld₁ ld₂ : LabelDictionary) (e f : Entry LabelId)
    (he : e ∈ (root (tree_distance.index_tree n₁ ld₁).1).nodes)
    (hf : f ∈ (root (tree_distance.index_tree n₂ ld₂).1).nodes)
    (hsingle : e.tree.size = 1 ∨ f.tree.size = 1) :
    ∃ d, UnitCostModelLD.IsDistance e.tree f.tree d ∧
      spf1 UnitCostModelLD (index_tree UnitCostModelLD n₁ ld₁).1 e.pre
        (index_tree UnitCostModelLD n₂ ld₂).1 f.pre =
      if e.tree.size = 1 ∧ f.tree.size = 1 then d
      else min d (2 * ((if e.tree.size = 1 then f.tree.values else e.tree.values).map Prod.snd).sum) := by
  have h₁ := (index_tree_describes UnitCostModelLD n₁ ld₁).1
  have h₂ := (index_tree_describes UnitCostModelLD n₂ ld₂).1
  refine ⟨UnitCostModelLD.dist [e.tree] [f.tree], CostModel.isDistance_iff.mpr rfl, ?_⟩
  by_cases hsize : e.tree.size = 1 <;> by_cases hsize' : f.tree.size = 1
  · rw [if_pos ⟨hsize, hsize'⟩, spf1_both h₁ h₂ he hf hsize hsize']
  · rw [if_neg (by tauto), if_pos hsize, spf1_first h₁ h₂ he hf hsize hsize', insAll_unit]
  · rw [if_neg (by tauto), if_neg hsize, spf1_second h₁ h₂ he hf hsize hsize', delAll_unit]
  · tauto

/-- A function `x` of weight 10 against the tree of `a` and `b` of weight 3: the distance is 13. -/
theorem spf1_heavy_leaf :
    UnitCostModelLD.IsDistance (.node (0, 10) []) (.node (1, 2) [.node (2, 1) []]) 13 ∧
      spf1 UnitCostModelLD
        (index_tree UnitCostModelLD (.node ⟨['x'], 10⟩ []) {}).1 0
        (index_tree UnitCostModelLD (.node ⟨['a'], 2⟩ [.node ⟨['b'], 1⟩ []])
          (index_tree UnitCostModelLD (.node ⟨['x'], 10⟩ []) {}).2).1 0 = 6 := by
  have hdist : UnitCostModelLD.dist [.node (0, 10) []] [.node (1, 2) [.node (2, 1) []]] = 13 := by
    rw [CostModel.dist_leaf]
    simp [CostModel.insAll, forestValues, values, UnitCostModelLD, ren, ins, del, int_add]
    norm_num
  refine ⟨CostModel.isDistance_iff.mpr hdist.symm, ?_⟩
  obtain ⟨d, hd, hspf1⟩ := spf1_single_node (.node ⟨['x'], 10⟩ [])
    (.node ⟨['a'], 2⟩ [.node ⟨['b'], 1⟩ []]) {}
    (index_tree UnitCostModelLD (.node ⟨['x'], 10⟩ []) {}).2
    ⟨none, 0, 0, .node (0, 10) []⟩ ⟨none, 0, 0, .node (1, 2) [.node (2, 1) []]⟩
    (mem_nodes_self _) (mem_nodes_self _) (.inl rfl)
  rw [CostModel.isDistance_iff, hdist] at hd
  rw [hspf1, hd]
  decide +kernel

/-- With a left or right path for each pair of subtrees that are no single nodes, the run returns
the least cost of an ordered edit mapping, whatever `spfA` does. -/
theorem gted_distance (n₁ n₂ : Node) (ld₁ ld₂ : LabelDictionary) (spfA : InnerPath) (s : Tables)
    (t₁ t₂ : Rose LabelId) (ti₁ ti₂ : TreeIndex)
    (ht₁ : t₁ = (tree_distance.index_tree n₁ ld₁).1) (ht₂ : t₂ = (tree_distance.index_tree n₂ ld₂).1)
    (hti₁ : ti₁ = (index_tree UnitCostModelLD n₁ ld₁).1)
    (hti₂ : ti₂ = (index_tree UnitCostModelLD n₂ ld₂).1)
    (hlight : Light t₁ t₂) (hsize : t₁.size ≠ 1) (hsize' : t₂.size ≠ 1)
    (hstrategy : ∀ e ∈ (root t₁).nodes, ∀ f ∈ (root t₂).nodes, e.tree.size ≠ 1 → f.tree.size ≠ 1 →
      ∃ id : ℤ, s.delta_ e.pre f.pre = id ∧ ValidPath t₁ e f id) :
    UnitCostModelLD.IsDistance t₁ t₂ (gted spfA UnitCostModelLD ti₁ ti₂ (t₁.size + t₂.size) 0 0
      (ted_init UnitCostModelLD ti₁ ti₂ s)).1 := by
  have h₁ : Describes UnitCostModelLD t₁ ti₁ := by
    rw [ht₁, hti₁]
    exact (index_tree_describes UnitCostModelLD n₁ ld₁).1
  have h₂ : Describes UnitCostModelLD t₂ ti₂ := by
    rw [ht₂, hti₂]
    exact (index_tree_describes UnitCostModelLD n₂ ld₂).1
  have hready : Ready UnitCostModelLD t₁ (region (root t₁) (root t₂))
      (ted_init UnitCostModelLD ti₁ ti₂ s) := by
    intro p hp
    have hinit := ted_init_spec (s := s) h₁ h₂ hp.1 hp.2
    split_ifs with hsingle
    · rwa [if_pos hsingle] at hinit
    · rw [if_neg hsingle] at hinit
      rw [not_or] at hsingle
      rw [hinit]
      exact hstrategy p.1 hp.1 p.2 hp.2 hsingle.1 hsingle.2
  rw [CostModel.isDistance_iff]
  exact (gted_spec h₁ h₂ (mem_nodes_self (root t₁)) (mem_nodes_self (root t₂)) le_rfl
    hlight.fits hready).2 hsize hsize'

/-- The first tree of the example: `a` calls `b` and `d`, and `b` calls `c`. -/
def fourNodes : Node := .node ⟨['a'], 5⟩ [.node ⟨['b'], 3⟩ [.node ⟨['c'], 2⟩ []], .node ⟨['d'], 1⟩ []]

/-- The second tree: `a` calls `b`, and `b` calls `c` and `e`. -/
def otherNodes : Node := .node ⟨['a'], 4⟩ [.node ⟨['b'], 4⟩ [.node ⟨['c'], 1⟩ [], .node ⟨['e'], 2⟩ []]]

/-- The roots take the right path of the first tree, and the other pairs take the left path of the
second tree or of the first one. -/
def mixedPaths (x y : ℕ) : ℤ := if x = 0 ∧ y = 0 then 4 else if x = 0 then -7 else -3

instance (t₁ : Rose LabelId) (e f : Entry LabelId) (id : ℤ) : Decidable (ValidPath t₁ e f id) :=
  have (e g : Entry LabelId) : Decidable (IsPathTo e g id) := decidable_of_iff' _ isPathTo_iff
  inferInstanceAs (Decidable (_ ∨ _))

theorem gted_distance_mixed_paths :
    let first := index_tree UnitCostModelLD fourNodes {}
    let second := index_tree UnitCostModelLD otherNodes first.2
    UnitCostModelLD.IsDistance (tree_distance.index_tree fourNodes {}).1
      (tree_distance.index_tree otherNodes (tree_distance.index_tree fourNodes {}).2).1
      (gted (fun _ _ _ _ _ _ s => (0, s)) UnitCostModelLD first.1 second.1 8 0 0
        (ted_init UnitCostModelLD first.1 second.1 ⟨fun _ _ => 0, fun x y => mixedPaths x y, 0⟩)).1 := by
  intro first second
  have hpaths : ∀ e ∈ (root (tree_distance.index_tree fourNodes {}).1).nodes, ∀ f ∈
      (root (tree_distance.index_tree otherNodes (tree_distance.index_tree fourNodes {}).2).1).nodes,
      e.tree.size ≠ 1 → f.tree.size ≠ 1 →
        ValidPath (tree_distance.index_tree fourNodes {}).1 e f (mixedPaths e.pre f.pre) := by
    decide +kernel
  exact gted_distance fourNodes otherNodes {} (tree_distance.index_tree fourNodes {}).2 _ _ _ _ _ _
    rfl rfl rfl rfl ⟨by decide, by decide, by decide⟩ (by decide) (by decide)
    fun e he f hf hsize hsize' => ⟨_, rfl, hpaths e he f hf hsize hsize'⟩

end ditto.apted
