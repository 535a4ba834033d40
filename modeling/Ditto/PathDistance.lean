-- The distance of two subtrees along a left or a right path (spfL and spfR of
-- apted_tree_index_impl.h). The tables for the key roots of the second tree,
-- taken from the last to the first, give the distance when the pairs with a
-- node beside the path are known. They cost what the index says they cost.
import Ditto.Lib.TreePath
import Ditto.TreeEditDist

namespace ditto.apted

open Rose TreeEdit bracket_notation tree_distance tree_index

/-! ## The model -/

/-- The loop up a path. For each child beside the path it makes a call. The numbers on a path
get smaller, so the number of the first node bounds the turns. -/
def climb {σ : Type} (ti : TreeIndex) (more : ℕ → Bool) (visit : σ → ℕ → σ) : ℕ → ℕ → σ → σ
  | 0, _, s => s
  | turns + 1, pathNode, s =>
    if more pathNode then
      let parent := (ti.prel pathNode).parent.toNat
      climb ti more visit turns parent
        ((ti.prel parent).children.foldl (fun s child => if child ≠ pathNode then visit s child else s) s)
    else s

/-- The leaf at the end of the path of a node: the first or the last one. -/
def Side.leaf : Side → PreL → ℕ
  | left => PreL.lld
  | right => PreL.rld

/-- The key roots are appended to a list, where the source fills an array up to an index. -/
def keyRoots (side : Side) (ti : TreeIndex) : ℕ → ℕ → ℕ → List ℕ → List ℕ
  | 0, _, _, roots => roots
  | fuel + 1, subtreeRootNode, pathID, roots =>
    climb ti (fun pathNode => pathNode > subtreeRootNode)
      (fun roots child => keyRoots side ti fuel child (side.leaf (ti.prel child)) roots)
      pathID pathID (roots ++ [subtreeRootNode])

/-- The model of `computeKeyRoots`. -/
def computeKeyRoots := keyRoots .left

/-- The model of `computeRevKeyRoots`. -/
def computeRevKeyRoots := keyRoots .right

/-- A new table and one run for each key root, from the last one on. -/
def pathDist (u_type : ℚ → ℚ) (side : Side) (c : CostModel LabelId ℚ) (t1 : TreeIndex)
    (t1_current_subtree : ℕ) (t2 : TreeIndex) (t2_current_subtree : ℕ) (treesSwapped : Bool)
    (s : Tables) : ℚ × Tables :=
  let roots := keyRoots side t2 (t2.prel t2_current_subtree).size t2_current_subtree
    (side.leaf (t2.prel t2_current_subtree)) []
  let s := roots.foldr (fun root s => subtreeDist u_type side c t1 t2 t1_current_subtree root
    treesSwapped s) { s with forestdist := fun _ _ => 0 }
  (s.forestdist (t1.prel t1_current_subtree).size (t2.prel t2_current_subtree).size, s)

/-- The model of `spfL`. -/
def spfL := pathDist id .left

/-- The model of `spfR`. -/
def spfR := pathDist toSingle .right

/-! ## The numbers of the nodes -/

namespace Side

/-- The number of a node in the postorder of `n` nodes. -/
def num (n : ℕ) (e : Entry LabelId) : Side → ℕ
  | left => e.post
  | right => n - 1 - e.pre

/-- The number of the leaf at the end of the path of a node. -/
def first (n : ℕ) (e : Entry LabelId) : Side → ℕ
  | left => e.first
  | right => n - e.pre - e.tree.size

/-- What the postorder from right to left sees is the mirror image. -/
def image : Side → List (Rose LabelId) → List (Rose LabelId)
  | left, F => F
  | right, F => forestMirror F

end Side

variable {c : CostModel LabelId ℚ} {t : Rose LabelId} {ti : TreeIndex} {side : Side}
  {e f g o : Entry LabelId}

theorem num_succ (side : Side) (he : e ∈ (root t).nodes) :
    side.first t.size e + e.tree.size = side.num t.size e + 1 := by
  have hpos := e.tree.size_pos
  obtain ⟨-, hle, -⟩ := nodes_bounds he
  simp only [root, Nat.zero_add] at hle
  cases side with
  | left =>
    simp only [Side.first, Side.num, Entry.post]
    omega
  | right =>
    simp only [Side.first, Side.num]
    omega

/-- The arrays of a postorder, read at the number of a node. -/
structure Numbered (side : Side) (t : Rose LabelId) (N : Numbering) (e : Entry LabelId) : Prop where
  prel_to_post : N.prel_to_post e.pre = side.num t.size e
  post_to_prel : N.post_to_prel (side.num t.size e) = e.pre
  post_to_leaf : N.post_to_leaf (side.num t.size e) = side.first t.size e
  label : N.post_to_label_id (side.num t.size e) = e.tree.value

theorem numbered (hti : Describes c t ti) (side : Side) (he : e ∈ (root t).nodes) :
    Numbered side t (side.numbering ti) e := by
  have hprel := hti.prel e he
  have hpostl := hti.postl e he
  have hpostr := hti.postr e he
  cases side with
  | left => constructor <;> simp [Side.numbering, Side.num, Side.first, hprel, hpostl, preOf]
  | right => constructor <;> simp [Side.numbering, Side.num, Side.first, hprel, hpostr, preOf]

theorem dist_image (c : CostModel LabelId ℚ) (side : Side) (F G : List (Rose LabelId)) :
    c.dist (side.image F) (side.image G) = c.dist F G := by
  cases side with
  | left => rfl
  | right => exact CostModel.dist_mirror c F G

theorem perm_values_image (side : Side) (F : List (Rose LabelId)) :
    (forestValues (side.image F)).Perm (forestValues F) := by
  cases side with
  | left => exact .refl _
  | right => exact perm_forestValues_mirror F

/-- The nodes of a subtree have numbers next to each other. -/
theorem spans_tree (hti : Describes c t ti) (side : Side) (he : e ∈ (root t).nodes) :
    Spans (side.numbering ti).order (side.first t.size e) (side.first t.size e + e.tree.size)
      (side.image [e.tree]) := by
  have hle := (nodes_bounds he).2.1
  simp only [root, Nat.zero_add] at hle
  have hnumbered := fun x (hx : x ∈ e.nodes) => numbered hti side (mem_nodes_trans he hx)
  cases side with
  | left =>
    exact spans_of_entries.1 e.tree e.parent e.pre e.first fun x hx =>
      ⟨(hnumbered x hx).label, (hnumbered x hx).post_to_leaf⟩
  | right =>
    have hmirror := (spans_mirror_of_entries (A := (Side.right.numbering ti).order) t.size).1 e.tree
      e.parent e.pre e.first hle fun x hx =>
        ⟨(hnumbered x hx).label, (hnumbered x hx).post_to_leaf⟩
    have hend : Side.right.first t.size e + e.tree.size = t.size - e.pre := by
      simp only [Side.first]
      omega
    rw [hend]
    exact hmirror

theorem image_singleton (side : Side) (t : Rose LabelId) :
    side.image [t] = [] ++ [.node t.value (side.image t.children)] := by
  obtain ⟨a, cs⟩ := t
  cases side <;> rfl

theorem spans_children (hti : Describes c t ti) (side : Side) (he : e ∈ (root t).nodes) :
    Spans (side.numbering ti).order (side.first t.size e) (side.num t.size e)
      (side.image e.tree.children) := by
  have htree := spans_tree hti side he
  have hnum := num_succ side he
  have hpos := e.tree.size_pos
  rw [hnum] at htree
  obtain ⟨F, cs, -, hbelow, heq⟩ := htree.exists_snoc (by omega)
  rw [image_singleton] at heq
  obtain ⟨-, hlast⟩ := List.append_inj' heq rfl
  simp only [List.cons.injEq, Rose.node.injEq, and_true] at hlast
  rw [hlast.2]
  have hleaf : (side.numbering ti).order.leaf (side.num t.size e) = side.first t.size e :=
    (numbered hti side he).post_to_leaf
  rwa [hleaf] at hbelow

/-- The numbers of a subtree are the numbers of its nodes. -/
theorem exists_node_num (side : Side) (he : e ∈ (root t).nodes) {k : ℕ} (hk : k < e.tree.size) :
    ∃ x ∈ e.nodes, side.num t.size x = side.first t.size e + k := by
  have hle := (nodes_bounds he).2.1
  simp only [root, Nat.zero_add] at hle
  cases side with
  | left => exact exists_node_post (Nat.le_add_right _ _) (by simp only [Side.first, Entry.post]; omega)
  | right =>
    obtain ⟨x, hx, hpre⟩ := exists_entry_pre.1 e.tree e.parent e.pre e.first
      (e.pre + e.tree.size - 1 - k) (by omega) (by omega)
    refine ⟨x, hx, ?_⟩
    simp only [Side.num, Side.first]
    omega

theorem node_bounds (side : Side) (he : e ∈ (root t).nodes) (hx : f ∈ e.nodes) :
    side.first t.size e ≤ side.first t.size f ∧
      side.num t.size f < side.first t.size e + e.tree.size := by
  have hle := (nodes_bounds he).2.1
  have hbounds := nodes_bounds hx
  have hpos := f.tree.size_pos
  simp only [root, Nat.zero_add] at hle
  cases side <;> simp only [Side.first, Side.num, Entry.post] <;> omega

/-! ## One table for two nodes -/

/-- An entry of `delta_` is the distance of the trees below two nodes. -/
def Right (c : CostModel LabelId ℚ) (treesSwapped : Bool) (s : Tables) (e f : Entry LabelId) : Prop :=
  s.delta treesSwapped e.pre f.pre =
    (ordered c treesSwapped).dist e.tree.children f.tree.children

/-- A node of the subtree of `e` on the path of `e`. -/
def OnPath (side : Side) (t : Rose LabelId) (e x : Entry LabelId) : Prop :=
  x ∈ e.nodes ∧ side.first t.size x = side.first t.size e

/-- After a run for two nodes all pairs below them are right, and no entry changes but those
with a node on the path of the first one. -/
structure Solved (c : CostModel LabelId ℚ) (side : Side) (t₁ t₂ : Rose LabelId) (treesSwapped : Bool)
    (e f : Entry LabelId) (s s' : Tables) : Prop where
  right : ∀ x ∈ e.nodes, ∀ y ∈ f.nodes, Right c treesSwapped s' x y
  same : ∀ x ∈ (root t₁).nodes, ∀ y ∈ (root t₂).nodes, ¬ (OnPath side t₁ e x ∧ y ∈ f.nodes) →
    s'.delta treesSwapped x.pre y.pre = s.delta treesSwapped x.pre y.pre

section Run

variable {c₁ c₂ : CostModel LabelId ℚ} {t₁ t₂ : Rose LabelId} {ti₁ ti₂ : TreeIndex}
  {treesSwapped : Bool} {u_type : ℚ → ℚ} {s : Tables}

theorem belowHolds_iff (h₁ : Describes c₁ t₁ ti₁) (h₂ : Describes c₂ t₂ ti₂)
    (he : e ∈ (root t₁).nodes) (hf : f ∈ (root t₂).nodes) :
    BelowHolds c (side.numbering ti₁) (side.numbering ti₂) treesSwapped s (side.num t₁.size e)
      (side.num t₂.size f) ↔ Right c treesSwapped s e f := by
  have hn₁ := numbered h₁ side he
  have hn₂ := numbered h₂ side hf
  have hspans₁ := spans_children h₁ side he
  have hspans₂ := spans_children h₂ side hf
  unfold BelowHolds Right
  rw [hn₁.post_to_leaf, hn₂.post_to_leaf, hn₁.post_to_prel, hn₂.post_to_prel]
  constructor
  · intro h
    rw [h _ _ hspans₁ hspans₂, dist_image]
  · intro h cs ds hcs hds
    rw [hcs.unique hspans₁, hds.unique hspans₂, dist_image, h]

theorem onPaths_iff (h₁ : Describes c₁ t₁ ti₁) (h₂ : Describes c₂ t₂ ti₂)
    {x y : Entry LabelId} (hx : x ∈ (root t₁).nodes) (hy : y ∈ (root t₂).nodes) :
    OnPaths (side.numbering ti₁) (side.numbering ti₂) (side.first t₁.size e) (side.first t₂.size f)
      (side.num t₁.size x) (side.num t₂.size y) ↔
      side.first t₁.size x = side.first t₁.size e ∧ side.first t₂.size y = side.first t₂.size f := by
  rw [OnPaths, (numbered h₁ side hx).post_to_leaf, (numbered h₂ side hy).post_to_leaf]

theorem prel_inj (hti : Describes c t ti) (he : e ∈ (root t).nodes) :
    ∀ i < e.tree.size, ∀ i' < e.tree.size,
      (side.numbering ti).post_to_prel (side.first t.size e + i) =
        (side.numbering ti).post_to_prel (side.first t.size e + i') → i = i' := by
  intro i hi i' hi' heq
  obtain ⟨x, hx, hxnum⟩ := exists_node_num side he hi
  obtain ⟨y, hy, hynum⟩ := exists_node_num side he hi'
  rw [← hxnum, ← hynum, (numbered hti side (mem_nodes_trans he hx)).post_to_prel,
    (numbered hti side (mem_nodes_trans he hy)).post_to_prel] at heq
  rw [eq_of_pre_eq hx hy heq] at hxnum
  omega

theorem subtreeDist_spec (h₁ : Describes c₁ t₁ ti₁) (h₂ : Describes c₂ t₂ ti₂)
    (hu : u_type = id ∨ u_type = toSingle)
    (he : e ∈ (root t₁).nodes) (hf : f ∈ (root t₂).nodes)
    (hfits : Fits (ordered c treesSwapped) [e.tree] [f.tree])
    (hright : ∀ x ∈ e.nodes, ∀ y ∈ f.nodes,
      ¬ (OnPath side t₁ e x ∧ OnPath side t₂ f y) → Right c treesSwapped s x y) :
    let s' := subtreeDist u_type side c ti₁ ti₂ e.pre f.pre treesSwapped s
    Solved c side t₁ t₂ treesSwapped e f s s' ∧
      s'.forestdist e.tree.size f.tree.size = (ordered c treesSwapped).dist [e.tree] [f.tree] ∧
      s'.subproblem_counter_ = s.subproblem_counter_ + e.tree.size * f.tree.size := by
  have hn₁ := numbered h₁ side he
  have hn₂ := numbered h₂ side hf
  have hnum₁ := num_succ side he
  have hnum₂ := num_succ side hf
  have hpos₁ := e.tree.size_pos
  have hpos₂ := f.tree.size_pos
  have hranges : Ranges c (side.numbering ti₁) (side.numbering ti₂) treesSwapped
      (side.first t₁.size e) e.tree.size (side.first t₂.size f) f.tree.size
      (side.image [e.tree]) (side.image [f.tree]) :=
    ⟨spans_tree h₁ side he, spans_tree h₂ side hf,
      hfits.mono (perm_values_image side _).subperm (perm_values_image side _).subperm,
      prel_inj h₁ he, prel_inj h₂ hf⟩
  have hfilled := fill_table_spec (s := s) hranges hu hn₁.post_to_leaf hn₂.post_to_leaf (by omega)
    (by omega) fun i hi j hj hpath => by
      obtain ⟨x, hx, hxnum⟩ := exists_node_num side he hi
      obtain ⟨y, hy, hynum⟩ := exists_node_num side hf hj
      have hx' := mem_nodes_trans he hx
      have hy' := mem_nodes_trans hf hy
      rw [← hxnum, ← hynum] at hpath ⊢
      rw [onPaths_iff h₁ h₂ hx' hy'] at hpath
      rw [belowHolds_iff h₁ h₂ hx' hy']
      exact hright x hx y hy fun h => hpath ⟨h.1.2, h.2.2⟩
  intro s'
  have hs' : s' = fill_table u_type c (side.numbering ti₁) (side.numbering ti₂)
      (side.num t₁.size e) (side.num t₂.size f) treesSwapped s := by
    rw [← hn₁.prel_to_post, ← hn₂.prel_to_post]
    rfl
  rw [← hs'] at hfilled
  refine ⟨⟨fun x hx y hy => ?_, fun x hx y hy hne => ?_⟩, ?_, ?_⟩
  · have hx' := mem_nodes_trans he hx
    have hy' := mem_nodes_trans hf hy
    have hxb := node_bounds side he hx
    have hyb := node_bounds side hf hy
    have hxnum := num_succ side hx'
    have hynum := num_succ side hy'
    have := x.tree.size_pos
    have := y.tree.size_pos
    have hbelow := hfilled.below (side.num t₁.size x - side.first t₁.size e) (by omega)
      (side.num t₂.size y - side.first t₂.size f) (by omega) (.inl (by omega))
    rw [Nat.add_sub_cancel' (by omega), Nat.add_sub_cancel' (by omega)] at hbelow
    exact (belowHolds_iff h₁ h₂ hx' hy').mp hbelow
  · refine hfilled.delta x.pre y.pre fun i hi j hj hpath hpre => hne ?_
    obtain ⟨x', hx', hxnum⟩ := exists_node_num side he hi
    obtain ⟨y', hy', hynum⟩ := exists_node_num side hf hj
    have hxr := mem_nodes_trans he hx'
    have hyr := mem_nodes_trans hf hy'
    rw [← hxnum, ← hynum] at hpath hpre
    rw [onPaths_iff h₁ h₂ hxr hyr] at hpath
    rw [(numbered h₁ side hxr).post_to_prel, (numbered h₂ side hyr).post_to_prel] at hpre
    rw [eq_of_pre_eq hx hxr hpre.1, eq_of_pre_eq hy hyr hpre.2]
    exact ⟨⟨hx', hpath.1⟩, hy'⟩
  · rw [hfilled.holds _ le_rfl _ le_rfl (.inl le_rfl) _ _ hranges.fst hranges.snd, dist_image]
  · rw [hfilled.counter, Nat.add_zero]

end Run

/-! ## The way up a path -/

theorem childNumbers_eq (ts : List (Rose LabelId)) (parent p q : ℕ) :
    childNumbers p ts = (siblings ts parent p q).map Entry.pre := by
  induction ts generalizing p q with
  | nil => rfl
  | cons t ts ih => simp [childNumbers, siblings, ih (p + t.size) (q + t.size)]

theorem children_eq (hti : Describes c t ti) (he : e ∈ (root t).nodes) :
    (ti.prel e.pre).children = e.kids.map Entry.pre := by
  rw [hti.prel e he]
  exact childNumbers_eq _ _ _ _

theorem foldl_beside {σ : Type} (visit : σ → ℕ → σ) (es : List (Entry LabelId)) (k : ℕ) (s : σ) :
    (es.map Entry.pre).foldl (fun s child => if child ≠ k then visit s child else s) s =
      ((es.filter fun o => o.pre ≠ k).map Entry.pre).foldl visit s := by
  induction es generalizing s with
  | nil => rfl
  | cons e es ih =>
    by_cases hk : e.pre = k
    · simpa [hk] using ih s
    · simpa [hk] using ih (visit s e.pre)

/-- The loop goes up and visits the trees beside its way in turn. -/
theorem climb_above {σ : Type} (more : ℕ → Bool) (visit : σ → ℕ → σ) (hti : Describes c t ti)
    {os : List (Entry LabelId)} (h : Above e g os) (he : e ∈ (root t).nodes)
    (hmore : ∀ x ∈ e.nodes, x ≠ e → more x.pre = true) {turns : ℕ} (hturns : g.pre - e.pre ≤ turns)
    (s : σ) : ∃ left, turns ≤ left + (g.pre - e.pre) ∧
      climb ti more visit turns g.pre s = climb ti more visit left e.pre
        ((os.map Entry.pre).foldl visit s) := by
  induction h with
  | self e => exact ⟨turns, Nat.le_add_right _ _, rfl⟩
  | @step e x g os hx below ih =>
    have hxb := kids_bounds hx
    have hgb := nodes_bounds below.mem
    have hxe := mem_nodes_trans he (mem_nodes_of_kid hx)
    have hne : ∀ y ∈ x.nodes, y ≠ e := by
      rintro y hy rfl
      have := nodes_bounds hy
      omega
    obtain ⟨left, hleft, heq⟩ := ih hxe
      (fun y hy _ => hmore y (mem_nodes_trans (mem_nodes_of_kid hx) hy) (hne y hy)) (by omega)
    obtain ⟨left, rfl⟩ : ∃ k, left = k + 1 := ⟨left - 1, by omega⟩
    refine ⟨left, by omega, ?_⟩
    have hparent : (ti.prel x.pre).parent.toNat = e.pre := by
      rw [hti.prel x hxe]
      simp [preOf, hxb.1]
    rw [heq, climb, if_pos (hmore x (mem_nodes_of_kid hx) (hne x (mem_nodes_self x)))]
    simp only [hparent]
    rw [children_eq hti he, foldl_beside, ← List.foldl_append, ← List.map_append]

/-! ## Key roots -/

/-- The path of a node ends at a leaf. -/
structure IsPathLeaf (side : Side) (t : Rose LabelId) (ti : TreeIndex) (e g : Entry LabelId) : Prop where
  mem : g ∈ e.nodes
  pre : g.pre = side.leaf (ti.prel e.pre)
  size : g.tree.size = 1
  first : side.first t.size g = side.first t.size e

theorem exists_first_leaf (e : Entry LabelId) :
    ∃ g ∈ e.nodes, g.pre = e.pre + leftDepth e.tree ∧ g.first = e.first ∧ g.tree.size = 1 := by
  induction hn : e.tree.size using Nat.strong_induction_on generalizing e with
  | _ n ih =>
    obtain ⟨parent, p, q, ⟨a, cs⟩⟩ := e
    cases cs with
    | nil => exact ⟨_, mem_nodes_self _, by simp [leftDepth], rfl, rfl⟩
    | cons t ts =>
      have hkid : (⟨some p, p + 1, q, t⟩ : Entry LabelId) ∈
          (⟨parent, p, q, .node a (t :: ts)⟩ : Entry LabelId).kids := List.mem_cons_self
      obtain ⟨g, hg, hpre, hfirst, hsize⟩ := ih _ (hn ▸ (kids_bounds hkid).2.2.2) _ rfl
      refine ⟨g, mem_nodes_iff.mpr (.inr ⟨_, hkid, hg⟩), ?_, hfirst, hsize⟩
      rw [hpre, leftDepth]
      dsimp only
      omega

theorem exists_pathLeaf (hti : Describes c t ti) (side : Side) (he : e ∈ (root t).nodes) :
    ∃ g, IsPathLeaf side t ti e g := by
  have hle := (nodes_bounds he).2.1
  have hpos := e.tree.size_pos
  simp only [root, Nat.zero_add] at hle
  cases side with
  | left =>
    obtain ⟨g, hg, hpre, hfirst, hsize⟩ := exists_first_leaf e
    refine ⟨g, hg, ?_, hsize, hfirst⟩
    rw [hpre, hti.prel e he]
    rfl
  | right =>
    obtain ⟨g, hg, hpre⟩ := exists_entry_pre.1 e.tree e.parent e.pre e.first
      (e.pre + e.tree.size - 1) (by omega) (by omega)
    have hgb := nodes_bounds hg
    have hgpos := g.tree.size_pos
    refine ⟨g, hg, ?_, by omega, ?_⟩
    · rw [hpre, hti.prel e he]
      rfl
    · simp only [Side.first]
      omega

/-- The key roots of a subtree: its root, and the key roots of the trees beside its path. -/
inductive KeyRoots (side : Side) (t : Rose LabelId) (ti : TreeIndex) :
    Entry LabelId → List ℕ → Prop
  | mk {e g : Entry LabelId} {os : List (Entry LabelId)} {roots : Entry LabelId → List ℕ}
      (path : Above e g os) (leaf : IsPathLeaf side t ti e g)
      (beside : ∀ o ∈ os, KeyRoots side t ti o (roots o)) :
      KeyRoots side t ti e (e.pre :: os.flatMap roots)

theorem exists_keyRoots (hti : Describes c t ti) (side : Side) (he : e ∈ (root t).nodes) :
    ∃ roots, KeyRoots side t ti e roots := by
  induction hn : e.tree.size using Nat.strong_induction_on generalizing e with
  | _ n ih =>
    obtain ⟨g, hg⟩ := exists_pathLeaf hti side he
    obtain ⟨os, hos⟩ := exists_above hg.mem
    have hbeside : ∀ o : Entry LabelId, ∃ roots, o ∈ os → KeyRoots side t ti o roots := by
      intro o
      by_cases ho : o ∈ os
      · obtain ⟨hmem, hlt⟩ := hos.mem_of_mem ho
        obtain ⟨roots, hroots⟩ := ih _ (hn ▸ hlt) (mem_nodes_trans he hmem) rfl
        exact ⟨roots, fun _ => hroots⟩
      · exact ⟨[], fun h => absurd h ho⟩
    choose roots hroots using hbeside
    exact ⟨_, .mk hos hg hroots⟩

theorem keyRoots_eq (hti : Describes c t ti) {roots : List ℕ} (h : KeyRoots side t ti e roots)
    (he : e ∈ (root t).nodes) {fuel : ℕ} (hfuel : e.tree.size ≤ fuel) (acc : List ℕ) :
    keyRoots side ti fuel e.pre (side.leaf (ti.prel e.pre)) acc = acc ++ roots := by
  induction h generalizing fuel acc with
  | @mk e g os roots path leaf beside ih =>
    have hpos := e.tree.size_pos
    obtain ⟨fuel, rfl⟩ : ∃ k, fuel = k + 1 := ⟨fuel - 1, by omega⟩
    have hmore : ∀ x ∈ e.nodes, x ≠ e → decide (x.pre > e.pre) = true := by
      intro x hx hne
      have hle := (nodes_bounds hx).1
      have hpre : x.pre ≠ e.pre := fun heq => hne (eq_of_pre_eq hx (mem_nodes_self e) heq)
      simp only [decide_eq_true_eq]
      omega
    obtain ⟨left, -, hclimb⟩ := climb_above (fun x => decide (x > e.pre))
      (fun roots child => keyRoots side ti fuel child (side.leaf (ti.prel child)) roots)
      hti path he hmore (Nat.sub_le g.pre e.pre) (acc ++ [e.pre])
    have hstop : ∀ s : List ℕ, climb ti (fun x => decide (x > e.pre))
        (fun roots child => keyRoots side ti fuel child (side.leaf (ti.prel child)) roots)
        left e.pre s = s := by
      intro s
      cases left <;> simp [climb]
    have hfold : ∀ os' : List (Entry LabelId), (∀ o ∈ os', o ∈ os) → ∀ s : List ℕ,
        (os'.map Entry.pre).foldl (fun roots child =>
          keyRoots side ti fuel child (side.leaf (ti.prel child)) roots) s =
          s ++ os'.flatMap roots := by
      intro os' hsub
      induction os' with
      | nil => simp
      | cons o os' ih' =>
        intro s
        obtain ⟨hmem, hlt⟩ := path.mem_of_mem (hsub o List.mem_cons_self)
        simp only [List.map_cons, List.foldl_cons]
        rw [ih o (hsub o List.mem_cons_self) (mem_nodes_trans he hmem) (by omega),
          ih' fun o' ho' => hsub o' (List.mem_cons_of_mem _ ho')]
        simp
    rw [keyRoots, ← leaf.pre, hclimb, hstop, hfold os fun _ ho => ho]
    simp

/-! ## Costs of a run -/

/-- The sizes of the key roots below a node, added up. -/
def Side.rest : Side → Rose LabelId → ℕ
  | left => leftRest
  | right => rightRest

/-- What the index has as the cost of a path. -/
def Side.cost : Side → PreL → ℤ
  | left => PreL.cost_left
  | right => PreL.cost_right

theorem leftRests_false (ts : List (Rose LabelId)) (parent p q : ℕ) : leftRests false ts =
    ((siblings ts parent p q).map fun k => leftRest k.tree + k.tree.size).sum := by
  induction ts generalizing p q with
  | nil => rfl
  | cons t ts ih =>
    simp only [leftRests, siblings, List.map_cons, List.sum_cons, ih (p + t.size) (q + t.size)]
    simp

theorem rightRests_eq (ts : List (Rose LabelId)) (parent p q : ℕ) : rightRests ts =
    ((siblings ts parent p q).map fun k => rightRest k.tree +
      if k.pre + k.tree.size = p + forestSize ts then 0 else k.tree.size).sum := by
  induction ts generalizing p q with
  | nil => rfl
  | cons t ts ih =>
    simp only [rightRests, siblings, List.map_cons, List.sum_cons, ih (p + t.size) (q + t.size),
      forestSize_cons, Nat.add_assoc, Nat.add_left_cancel_iff]
    cases ts with
    | nil => simp
    | cons u us =>
      have := u.size_pos
      simp only [forestSize_cons, List.isEmpty_cons]
      simp
      omega

theorem rest_eq (side : Side) (he : e ∈ (root t).nodes) : side.rest e.tree =
    (e.kids.map fun k => side.rest k.tree +
      if side.first t.size k = side.first t.size e then 0 else k.tree.size).sum := by
  have hle := (nodes_bounds he).2.1
  simp only [root, Nat.zero_add] at hle
  obtain ⟨parent, p, q, ⟨a, cs⟩⟩ := e
  cases side with
  | left =>
    cases cs with
    | nil => rfl
    | cons u us =>
      have := u.size_pos
      simp only [Side.rest, leftRest, leftRests, Entry.kids, children, siblings, List.map_cons,
        List.sum_cons, leftRests_false us p (p + 1 + u.size) (q + u.size)]
      rw [if_pos (show Side.left.first t.size ⟨some p, p + 1, q, u⟩ =
        Side.left.first t.size ⟨parent, p, q, .node a (u :: us)⟩ from rfl)]
      refine congrArg (leftRest u + 0 + ·) (congrArg List.sum (List.map_congr_left fun k hk => ?_))
      have hk' : Side.left.first t.size k ≠ Side.left.first t.size ⟨parent, p, q, .node a (u :: us)⟩ := by
        have := siblings_bounds hk
        simp only [Side.first]
        omega
      rw [if_neg hk']
  | right =>
    simp only [size_node] at hle
    simp only [Side.rest, rightRest, Entry.kids, children, Side.first, size_node,
      rightRests_eq cs p (p + 1) q]
    refine congrArg List.sum (List.map_congr_left fun k hk => ?_)
    have := siblings_bounds hk
    congr 1
    exact if_congr (by omega) rfl rfl

/-- Along the path of a node the trees beside it have all its key roots. -/
theorem rest_above (side : Side) {os : List (Entry LabelId)} (h : Above e g os)
    (he : e ∈ (root t).nodes) (hfirst : side.first t.size g = side.first t.size e) :
    side.rest e.tree =
      side.rest g.tree + (os.map fun o => side.rest o.tree + o.tree.size).sum := by
  induction h with
  | self e => simp
  | @step e x g os hx below ih =>
    have hxe := mem_nodes_trans he (mem_nodes_of_kid hx)
    have hxfirst : side.first t.size x = side.first t.size e := by
      have := (node_bounds side he (mem_nodes_of_kid hx)).1
      have := (node_bounds side hxe below.mem).1
      omega
    have hothers : ∀ o ∈ e.kids.filter fun o => o.pre ≠ x.pre,
        side.first t.size o ≠ side.first t.size e := by
      intro o ho heq
      obtain ⟨ho', hne⟩ := List.mem_filter.mp ho
      have hpos := o.tree.size_pos
      have hpos' := x.tree.size_pos
      have hob := (nodes_bounds (mem_nodes_trans he (mem_nodes_of_kid ho'))).2.1
      have hxb := (nodes_bounds hxe).2.1
      simp only [root, Nat.zero_add] at hob hxb
      rw [← hxfirst] at heq
      rcases siblings_disjoint ho' hx with rfl | hlt | hlt
      · simp at hne
      · cases side <;> simp only [Side.first] at heq <;> omega
      · cases side <;> simp only [Side.first] at heq <;> omega
    rw [rest_eq side he, Entry.kids, sum_siblings hx, if_pos hxfirst, Nat.add_zero,
      ih hxe (hfirst.trans hxfirst.symm), List.map_append, List.sum_append, Nat.add_assoc]
    congr 2
    refine congrArg List.sum (List.map_congr_left fun o ho => ?_)
    rw [if_neg (hothers o ho)]

/-! ## The run over the key roots -/

section Runs

variable {c₁ c₂ : CostModel LabelId ℚ} {t₁ t₂ : Rose LabelId} {ti₁ ti₂ : TreeIndex}
  {treesSwapped : Bool} {u_type : ℚ → ℚ} {s : Tables} {os : List (Entry LabelId)}

theorem Fits.node (h : Fits c [e.tree] [f.tree]) {x y : Entry LabelId} (hx : x ∈ e.nodes)
    (hy : y ∈ f.nodes) : Fits c [x.tree] [y.tree] := by
  refine h.mono ?_ ?_
  · simp only [forestValues, List.append_nil]
    exact (values_sublist hx).subperm
  · simp only [forestValues, List.append_nil]
    exact (values_sublist hy).subperm

/-- What a run for `e` and some trees of the second side has done. -/
structure SolvedAll (c : CostModel LabelId ℚ) (side : Side) (t₁ t₂ : Rose LabelId)
    (treesSwapped : Bool) (e : Entry LabelId) (os : List (Entry LabelId)) (s s' : Tables) : Prop where
  right : ∀ x ∈ e.nodes, ∀ o ∈ os, ∀ y ∈ o.nodes, Right c treesSwapped s' x y
  same : ∀ x ∈ (root t₁).nodes, ∀ y ∈ (root t₂).nodes,
    ¬ (OnPath side t₁ e x ∧ ∃ o ∈ os, y ∈ o.nodes) →
      s'.delta treesSwapped x.pre y.pre = s.delta treesSwapped x.pre y.pre
  counter : s'.subproblem_counter_ = s.subproblem_counter_ +
    e.tree.size * (os.map fun o => side.rest o.tree + o.tree.size).sum

/-- One more tree: an entry that was right is right after the run for the tree. -/
theorem SolvedAll.cons {s₁ s₂ : Tables} (ho : o ∈ (root t₂).nodes) (he : e ∈ (root t₁).nodes)
    (hos : ∀ o ∈ os, o ∈ (root t₂).nodes)
    (h : SolvedAll c side t₁ t₂ treesSwapped e os s s₁)
    (hsolved : Solved c side t₁ t₂ treesSwapped e o s₁ s₂)
    (hcounter : s₂.subproblem_counter_ =
      s₁.subproblem_counter_ + e.tree.size * (side.rest o.tree + o.tree.size)) :
    SolvedAll c side t₁ t₂ treesSwapped e (o :: os) s s₂ where
  right := by
    intro x hx o' ho' y hy
    by_cases hyo : y ∈ o.nodes
    · exact hsolved.right x hx y hyo
    · rcases List.mem_cons.mp ho' with rfl | ho'
      · exact absurd hy hyo
      · unfold Right
        rw [hsolved.same x (mem_nodes_trans he hx) y (mem_nodes_trans (hos o' ho') hy)
          fun hpath => hyo hpath.2]
        exact h.right x hx o' ho' y hy
  same := by
    intro x hx y hy hne
    rw [hsolved.same x hx y hy fun hpath => hne ⟨hpath.1, o, List.mem_cons_self, hpath.2⟩]
    refine h.same x hx y hy ?_
    rintro ⟨hpath, o', ho', hyo'⟩
    exact hne ⟨hpath, o', List.mem_cons_of_mem _ ho', hyo'⟩
  counter := by
    rw [hcounter, h.counter]
    simp only [List.map_cons, List.sum_cons, Nat.mul_add]
    omega

/-- The tables for the key roots of a subtree, from the last one to the first. -/
theorem keyRoots_run (h₁ : Describes c₁ t₁ ti₁) (h₂ : Describes c₂ t₂ ti₂)
    (hu : u_type = id ∨ u_type = toSingle) (he : e ∈ (root t₁).nodes) {roots : List ℕ}
    (hroots : KeyRoots side t₂ ti₂ f roots) (hf : f ∈ (root t₂).nodes)
    (hfits : Fits (ordered c treesSwapped) [e.tree] [f.tree])
    (hright : ∀ x ∈ e.nodes, ¬ OnPath side t₁ e x → ∀ y ∈ f.nodes, Right c treesSwapped s x y) :
    let s' := roots.foldr (fun root s => subtreeDist u_type side c ti₁ ti₂ e.pre root treesSwapped s) s
    Solved c side t₁ t₂ treesSwapped e f s s' ∧
      s'.forestdist e.tree.size f.tree.size = (ordered c treesSwapped).dist [e.tree] [f.tree] ∧
      s'.subproblem_counter_ =
        s.subproblem_counter_ + e.tree.size * (side.rest f.tree + f.tree.size) := by
  induction hroots generalizing s with
  | @mk f g os roots path leaf beside ih =>
    -- The trees beside the path first, from the last one on.
    have hbeside : ∀ os' : List (Entry LabelId), (∀ o ∈ os', o ∈ os) →
        SolvedAll c side t₁ t₂ treesSwapped e os' s ((os'.flatMap roots).foldr
          (fun root s => subtreeDist u_type side c ti₁ ti₂ e.pre root treesSwapped s) s) := by
      intro os' hsub
      induction os' with
      | nil => exact ⟨fun x _ o ho => absurd ho List.not_mem_nil, fun _ _ _ _ _ => rfl, by simp⟩
      | cons o os' ih' =>
        have hrest := ih' fun o' ho' => hsub o' (List.mem_cons_of_mem _ ho')
        have hof := (path.mem_of_mem (hsub o List.mem_cons_self)).1
        rw [List.flatMap_cons, List.foldr_append]
        obtain ⟨hsolved, -, hcounter⟩ := ih o (hsub o List.mem_cons_self) (mem_nodes_trans hf hof)
          (hfits.node (mem_nodes_self e) hof) fun x hx hpath y hy => by
            unfold Right
            rw [hrest.same x (mem_nodes_trans he hx) y (mem_nodes_trans hf (mem_nodes_trans hof hy))
              fun h => hpath h.1]
            exact hright x hx hpath y (mem_nodes_trans hof hy)
        exact hrest.cons (mem_nodes_trans hf hof) he (fun o' ho' => mem_nodes_trans hf
          (path.mem_of_mem (hsub o' (List.mem_cons_of_mem _ ho'))).1) hsolved hcounter
    have hall := hbeside os fun _ ho => ho
    set s₁ := (os.flatMap roots).foldr
      (fun root s => subtreeDist u_type side c ti₁ ti₂ e.pre root treesSwapped s) s
    have hrest : side.rest f.tree = (os.map fun o => side.rest o.tree + o.tree.size).sum := by
      rw [rest_above side path hf leaf.first, rest_eq side (mem_nodes_trans hf leaf.mem)]
      have hkids : g.kids = [] := by
        refine List.eq_nil_iff_forall_not_mem.mpr fun k hk => ?_
        have := kids_bounds hk
        have := k.tree.size_pos
        have := leaf.size
        omega
      simp [hkids]
    obtain ⟨hsolved, hdist, hcounter⟩ := subtreeDist_spec (s := s₁) h₁ h₂ hu he hf hfits
      fun x hx y hy hpaths => by
        have hx' := mem_nodes_trans he hx
        have hy' := mem_nodes_trans hf hy
        by_cases hxpath : OnPath side t₁ e x
        · have hypath : ¬ OnPath side t₂ f y := fun h => hpaths ⟨hxpath, h⟩
          rcases path.cover hy with hg | hg | ⟨o, ho, hyo⟩
          · refine absurd ⟨hy, ?_⟩ hypath
            have := (node_bounds side hf hy).1
            have := (node_bounds side hy' hg).1
            have := leaf.first
            omega
          · rw [eq_of_mem_leaf leaf.size hg] at hypath
            exact absurd ⟨leaf.mem, leaf.first⟩ hypath
          · exact hall.right x hx o ho y hyo
        · unfold Right
          rw [hall.same x hx' y hy' fun h => hxpath h.1]
          exact hright x hx hxpath y hy
    refine ⟨⟨hsolved.right, fun x hx y hy hne => ?_⟩, hdist, ?_⟩
    · refine (hsolved.same x hx y hy hne).trans (hall.same x hx y hy ?_)
      rintro ⟨hpath, o, ho, hyo⟩
      exact hne ⟨hpath, mem_nodes_trans (path.mem_of_mem ho).1 hyo⟩
    · refine hcounter.trans ?_
      rw [hall.counter, hrest, Nat.mul_add]
      omega

theorem pathDist_spec (side : Side) (h₁ : Describes c₁ t₁ ti₁) (h₂ : Describes c₂ t₂ ti₂)
    (hu : u_type = id ∨ u_type = toSingle) (he : e ∈ (root t₁).nodes) (hf : f ∈ (root t₂).nodes)
    (hfits : Fits (ordered c treesSwapped) [e.tree] [f.tree])
    (hright : ∀ x ∈ e.nodes, ¬ OnPath side t₁ e x → ∀ y ∈ f.nodes, Right c treesSwapped s x y) :
    let r := pathDist u_type side c ti₁ e.pre ti₂ f.pre treesSwapped s
    r.1 = (ordered c treesSwapped).dist [e.tree] [f.tree] ∧
      Solved c side t₁ t₂ treesSwapped e f s r.2 ∧
      r.2.subproblem_counter_ =
        s.subproblem_counter_ + (ti₁.prel e.pre).size * side.cost (ti₂.prel f.pre) := by
  obtain ⟨roots, hroots⟩ := exists_keyRoots h₂ side hf
  have hsize : (ti₂.prel f.pre).size = f.tree.size := by rw [h₂.prel f hf]; rfl
  have hsize' : (ti₁.prel e.pre).size = e.tree.size := by rw [h₁.prel e he]; rfl
  have hcost : side.cost (ti₂.prel f.pre) = side.rest f.tree + f.tree.size := by
    rw [h₂.prel f hf]
    cases side <;> rfl
  obtain ⟨hsolved, hdist, hcounter⟩ := keyRoots_run (s := { s with forestdist := fun _ _ => 0 })
    h₁ h₂ hu he hroots hf hfits hright
  have hr : pathDist u_type side c ti₁ e.pre ti₂ f.pre treesSwapped s =
      ((roots.foldr (fun root s => subtreeDist u_type side c ti₁ ti₂ e.pre root treesSwapped s)
        { s with forestdist := fun _ _ => 0 }).forestdist e.tree.size f.tree.size,
        roots.foldr (fun root s => subtreeDist u_type side c ti₁ ti₂ e.pre root treesSwapped s)
        { s with forestdist := fun _ _ => 0 }) := by
    unfold pathDist
    simp only [hsize, hsize', keyRoots_eq h₂ hroots hf le_rfl [], List.nil_append]
  rw [hr]
  refine ⟨hdist, ⟨hsolved.right, hsolved.same⟩, ?_⟩
  rw [hcounter, hsize', hcost]
  push_cast
  rfl

end Runs

/-- The function for the paths of a side. -/
def Side.spf : Side → CostModel LabelId ℚ → TreeIndex → ℕ → TreeIndex → ℕ → Bool → Tables → ℚ × Tables
  | left => spfL
  | right => spfR

/-- When the pairs with a node beside the path are known, `spfL` and `spfR` return the least cost
of an ordered edit mapping between two subtrees, every pair of the subtrees is known then, and
the subproblems are as many as the index says. -/
theorem spfL_spfR_distance (n₁ n₂ : Node) (ld₁ ld₂ : LabelDictionary) (t₁ t₂ : Rose LabelId)
    (ti₁ ti₂ : TreeIndex) (ht₁ : t₁ = (tree_distance.index_tree n₁ ld₁).1)
    (ht₂ : t₂ = (tree_distance.index_tree n₂ ld₂).1)
    (hti₁ : ti₁ = (index_tree UnitCostModelLD n₁ ld₁).1)
    (hti₂ : ti₂ = (index_tree UnitCostModelLD n₂ ld₂).1) (hlight : Light t₁ t₂) (side : Side)
    (treesSwapped : Bool) (s : Tables) (e f : Entry LabelId) (he : e ∈ (root t₁).nodes)
    (hf : f ∈ (root t₂).nodes)
    (hbeside : ∀ x ∈ e.nodes, ¬ OnPath side t₁ e x → ∀ y ∈ f.nodes,
      Right UnitCostModelLD treesSwapped s x y) :
    let r := side.spf UnitCostModelLD ti₁ e.pre ti₂ f.pre treesSwapped s
    (ordered UnitCostModelLD treesSwapped).IsDistance e.tree f.tree r.1 ∧
      (∀ x ∈ e.nodes, ∀ y ∈ f.nodes, Right UnitCostModelLD treesSwapped r.2 x y) ∧
      r.2.subproblem_counter_ =
        s.subproblem_counter_ + (ti₁.prel e.pre).size * side.cost (ti₂.prel f.pre) := by
  have h₁ : Describes UnitCostModelLD t₁ ti₁ := by
    rw [ht₁, hti₁]
    exact (index_tree_describes UnitCostModelLD n₁ ld₁).1
  have h₂ : Describes UnitCostModelLD t₂ ti₂ := by
    rw [ht₂, hti₂]
    exact (index_tree_describes UnitCostModelLD n₂ ld₂).1
  have hfits := (hlight.fits_ordered treesSwapped).node (e := root t₁) (f := root t₂) he hf
  cases side with
  | left =>
    obtain ⟨hdist, hsolved, hcounter⟩ := pathDist_spec .left h₁ h₂ (.inl rfl) he hf hfits hbeside
    exact ⟨CostModel.isDistance_iff.mpr hdist, hsolved.right, hcounter⟩
  | right =>
    obtain ⟨hdist, hsolved, hcounter⟩ := pathDist_spec .right h₁ h₂ (.inr rfl) he hf hfits hbeside
    exact ⟨CostModel.isDistance_iff.mpr hdist, hsolved.right, hcounter⟩

/-- The trees of `a` over `b` and `c`, and of `a` over `c`. The node beside the left path of the
first is `c`, and the pairs with it are known. -/
theorem spfL_three_nodes :
    (ordered UnitCostModelLD false).IsDistance (.node (0, 3) [.node (1, 1) [], .node (2, 1) []])
      (.node (0, 2) [.node (2, 1) []])
      (Side.left.spf UnitCostModelLD
        (index_tree UnitCostModelLD (.node ⟨['a'], 3⟩ [.node ⟨['b'], 1⟩ [], .node ⟨['c'], 1⟩ []]) {}).1 0
        (index_tree UnitCostModelLD (.node ⟨['a'], 2⟩ [.node ⟨['c'], 1⟩ []])
          (tree_distance.index_tree
            (.node ⟨['a'], 3⟩ [.node ⟨['b'], 1⟩ [], .node ⟨['c'], 1⟩ []]) {}).2).1 0 false
        ⟨fun _ _ => 0, fun _ y => if y = 0 then 1 else 0, 0⟩).1 := by
  refine (spfL_spfR_distance (.node ⟨['a'], 3⟩ [.node ⟨['b'], 1⟩ [], .node ⟨['c'], 1⟩ []])
    (.node ⟨['a'], 2⟩ [.node ⟨['c'], 1⟩ []]) {} (tree_distance.index_tree
      (.node ⟨['a'], 3⟩ [.node ⟨['b'], 1⟩ [], .node ⟨['c'], 1⟩ []]) {}).2
    (.node (0, 3) [.node (1, 1) [], .node (2, 1) []]) (.node (0, 2) [.node (2, 1) []]) _ _ rfl rfl
    rfl rfl ⟨by decide, by decide, by decide⟩ .left false _ (root _) (root _)
    (mem_nodes_self _) (mem_nodes_self _) fun x hx hpath y hy => ?_).1
  have hleaf : x.tree.children = [] := by
    rcases List.mem_cons.mp hx with rfl | hx
    · exact absurd ⟨mem_nodes_self _, rfl⟩ hpath
    · rcases List.mem_cons.mp hx with rfl | hx
      · rfl
      · obtain rfl := List.mem_singleton.mp hx
        rfl
  rw [Right, hleaf, CostModel.dist_nil_left]
  rcases List.mem_cons.mp hy with rfl | hy
  · have hvalue : (ordered UnitCostModelLD false).insAll [.node (2, 1) []] = 1 := by decide +kernel
    exact hvalue.symm
  · obtain rfl := List.mem_singleton.mp hy
    rfl

end ditto.apted
