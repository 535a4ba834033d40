-- The index of a tree (tree_indexer_impl.h of tree-similarity). One walk over
-- the tree fills all arrays, by the numbers of the nodes in preorder and in
-- the postorders from both sides. Every entry is what the tree says about the
-- node of that number.
import Ditto.Lib.ForestEdit
import Ditto.Lib.TreePath
import Ditto.TreeDistance

namespace ditto.tree_index

open Rose TreeEdit bracket_notation tree_distance

/-! ## The model -/

/-- The entries of the arrays `prel_to_*` for one node. -/
@[ext]
structure PreL where
  size : ℕ := 0
  parent : ℤ := -1
  children : List ℕ := []
  postl : ℕ := 0
  postr : ℕ := 0
  label_id : LabelId := (0, 0)
  lld : ℕ := 0
  rld : ℕ := 0
  cost_left : ℤ := 0
  cost_right : ℤ := 0
  subtree_del_cost : ℚ := 0
  subtree_ins_cost : ℚ := 0

/-- The entries of the arrays `postl_to_*` for one node. -/
structure PostL where
  prel : ℕ := 0
  label_id : LabelId := (0, 0)
  lld : ℕ := 0

/-- The entries of the arrays `postr_to_*` for one node. -/
@[ext]
structure PostR where
  prel : ℕ := 0
  label_id : LabelId := (0, 0)
  rld : ℕ := 0

/-- The arrays of a tree index that the distance reads. Arrays that are indexed by the same
numbers are one array of records here. -/
structure TreeIndex where
  tree_size_ : ℕ
  prel : ℕ → PreL
  postl : ℕ → PostL
  postr : ℕ → PostR

/-- What the walk changes: the index, the dictionary and the next two numbers. -/
structure Walk where
  ti : TreeIndex
  ld : LabelDictionary
  start_preorder : ℕ
  start_postorder : ℕ

/-- The local variables of the loop over the children. -/
structure Children where
  desc_sum : ℕ := 0
  children_preorders : List ℕ := []
  first_child_postorder : Option ℕ := none

namespace Walk

def modifyPrel (w : Walk) (x : ℕ) (f : PreL → PreL) : Walk :=
  { w with ti := { w.ti with prel := Function.update w.ti.prel x (f (w.ti.prel x)) } }

def nextPostorder (w : Walk) : Walk := { w with start_postorder := w.start_postorder + 1 }

/-- The entries of a node behind the loop over its children. -/
def setNode (w : Walk) (this_nodes_preorder : ℕ) (label_id : LabelId) (c : Children) : Walk :=
  let postorder_r := w.ti.tree_size_ - 1 - this_nodes_preorder
  let w := w.modifyPrel this_nodes_preorder fun x => { x with
    size := c.desc_sum + 1
    children := c.children_preorders
    postl := w.start_postorder
    postr := postorder_r
    label_id
    lld := match c.first_child_postorder with
      | none => this_nodes_preorder
      | some _ => (w.ti.prel (this_nodes_preorder + 1)).lld
    rld := this_nodes_preorder + c.desc_sum }
  { w with ti := { w.ti with
      postl := Function.update w.ti.postl w.start_postorder
        { prel := this_nodes_preorder
          label_id
          lld := match c.first_child_postorder with
            | none => w.start_postorder
            | some first_child_postorder => (w.ti.postl first_child_postorder).lld }
      postr := Function.update w.ti.postr postorder_r
        { w.ti.postr postorder_r with prel := this_nodes_preorder, label_id } } }

/-- The costs of a node, which its parent adds up. -/
def addCosts (cm : CostModel LabelId ℚ) (w : Walk) (this_nodes_preorder : ℕ)
    (parent_preorder : Option ℕ) (is_rightmost_child : Bool) (label_id : LabelId) (size : ℕ) :
    Walk :=
  let w := w.modifyPrel this_nodes_preorder fun x => { x with
    subtree_del_cost := x.subtree_del_cost + cm.del label_id
    subtree_ins_cost := x.subtree_ins_cost + cm.ins label_id }
  let this := w.ti.prel this_nodes_preorder
  let w := match parent_preorder with
    | none => w
    | some parent => w.modifyPrel parent fun x => { x with
        cost_left := x.cost_left + this.cost_left +
          (if this_nodes_preorder ≠ parent + 1 then (size : ℤ) else 0)
        cost_right := x.cost_right + this.cost_right +
          (if ¬ is_rightmost_child then (size : ℤ) else 0)
        subtree_del_cost := x.subtree_del_cost + this.subtree_del_cost
        subtree_ins_cost := x.subtree_ins_cost + this.subtree_ins_cost }
  w.modifyPrel this_nodes_preorder fun x => { x with
    cost_left := x.cost_left + size
    cost_right := x.cost_right + size }

end Walk

mutual

/-- The model of `index_tree_recursion`, which returns the number of nodes. -/
def index_tree_recursion (cm : CostModel LabelId ℚ) :
    Node → Option ℕ → Bool → Walk → ℕ × Walk
  | .node l cs, parent_preorder, is_rightmost_child, w =>
    let (label_id, ld) := w.ld.insert l
    let this_nodes_preorder := w.start_preorder
    let (c, w) := index_children cm this_nodes_preorder cs {}
      { w with ld, start_preorder := w.start_preorder + 1 }
    let w := w.setNode this_nodes_preorder label_id c
    let w := w.addCosts cm this_nodes_preorder parent_preorder is_rightmost_child label_id
      (c.desc_sum + 1)
    (c.desc_sum + 1, w.nextPostorder)

/-- The loop over the children of the node `this_nodes_preorder`. -/
def index_children (cm : CostModel LabelId ℚ) (this_nodes_preorder : ℕ) :
    List Node → Children → Walk → Children × Walk
  | [], c, w => (c, w)
  | n :: ns, c, w =>
    let child := w.start_preorder
    let w := w.modifyPrel child fun x => { x with parent := this_nodes_preorder }
    let (size, w) := index_tree_recursion cm n (some this_nodes_preorder) ns.isEmpty w
    index_children cm this_nodes_preorder ns
      { desc_sum := c.desc_sum + size
        children_preorders := c.children_preorders ++ [child]
        first_child_postorder := c.first_child_postorder.or (some (w.start_postorder - 1)) } w

end

/-- One turn of the loop of `fill_rld`. -/
def fill_rld_step (ti : TreeIndex) (i : ℕ) : TreeIndex :=
  let preorder := (ti.postr i).prel
  let rld := if (ti.prel preorder).size = 1 then i
    else (ti.postr (ti.prel ((ti.prel preorder).children.getLastD 0)).postr).rld
  { ti with postr := Function.update ti.postr i { ti.postr i with rld } }

/-- The model of `fill_rld`. -/
def fill_rld (ti : TreeIndex) : TreeIndex :=
  (List.range (ti.prel 0).size).foldl fill_rld_step ti

/-- The model of `index_tree`, for a new index. -/
def index_tree (cm : CostModel LabelId ℚ) (n : Node) (ld : LabelDictionary) :
    TreeIndex × LabelDictionary :=
  let ti : TreeIndex :=
    { tree_size_ := n.size
      prel := fun _ => {}
      postl := fun _ => {}
      postr := fun _ => {} }
  let (_, w) := index_tree_recursion cm n none false
    { ti, ld, start_preorder := 0, start_postorder := 0 }
  (fill_rld w.ti, w.ld)

/-! ## What the tree says about a node -/

/-- The numbers of siblings in preorder. -/
def childNumbers : ℕ → List (Rose LabelId) → List ℕ
  | _, [] => []
  | p, t :: ts => p :: childNumbers (p + t.size) ts

/-- The number of steps down to the first leaf. -/
def leftDepth : Rose LabelId → ℕ
  | .node _ [] => 0
  | .node _ (c :: _) => leftDepth c + 1

mutual

/-- The sizes of all nodes below a node that are not a first child, added up. -/
def leftRest : Rose LabelId → ℕ
  | .node _ cs => leftRests true cs

def leftRests : Bool → List (Rose LabelId) → ℕ
  | _, [] => 0
  | isFirst, t :: ts => leftRest t + (if isFirst then 0 else t.size) + leftRests false ts

end

mutual

/-- The sizes of all nodes below a node that are not a last child, added up. -/
def rightRest : Rose LabelId → ℕ
  | .node _ cs => rightRests cs

def rightRests : List (Rose LabelId) → ℕ
  | [] => 0
  | t :: ts => rightRest t + (if ts.isEmpty then 0 else t.size) + rightRests ts

end

/-- The record of a node in the arrays that are indexed in preorder. -/
def preOf (cm : CostModel LabelId ℚ) (n : ℕ) (e : Entry LabelId) : PreL where
  size := e.tree.size
  parent := e.parent.elim (-1) fun p => (p : ℤ)
  children := childNumbers (e.pre + 1) e.tree.children
  postl := e.post
  postr := n - 1 - e.pre
  label_id := e.tree.value
  lld := e.pre + leftDepth e.tree
  rld := e.pre + e.tree.size - 1
  cost_left := leftRest e.tree + e.tree.size
  cost_right := rightRest e.tree + e.tree.size
  subtree_del_cost := cm.delAll [e.tree]
  subtree_ins_cost := cm.insAll [e.tree]

/-- The record of a parent with the costs of some of its children. -/
def PreL.add (x : PreL) (left right : ℕ) (del ins : ℚ) : PreL :=
  { x with
    cost_left := x.cost_left + left
    cost_right := x.cost_right + right
    subtree_del_cost := x.subtree_del_cost + del
    subtree_ins_cost := x.subtree_ins_cost + ins }

/-- What a part of the walk has done when it has met `size` nodes. -/
structure Walked (cm : CostModel LabelId ℚ) (es : List (Entry LabelId)) (size : ℕ) (w w' : Walk) :
    Prop where
  tree_size : w'.ti.tree_size_ = w.ti.tree_size_
  preorder : w'.start_preorder = w.start_preorder + size
  postorder : w'.start_postorder = w.start_postorder + size
  prel : ∀ e ∈ es, w'.ti.prel e.pre = preOf cm w.ti.tree_size_ e
  postl : ∀ e ∈ es, w'.ti.postl e.post = ⟨e.pre, e.tree.value, e.first⟩
  postr : ∀ e ∈ es, (w'.ti.postr (w.ti.tree_size_ - 1 - e.pre)).prel = e.pre ∧
    (w'.ti.postr (w.ti.tree_size_ - 1 - e.pre)).label_id = e.tree.value
  postl_frame : ∀ y, y < w.start_postorder ∨ w.start_postorder + size ≤ y →
    w'.ti.postl y = w.ti.postl y
  postr_frame : ∀ z, (∀ x, w.start_preorder ≤ x → x < w.start_preorder + size →
    z ≠ w.ti.tree_size_ - 1 - x) → w'.ti.postr z = w.ti.postr z

/-! ## One node -/

namespace Walk

variable (w : Walk) (x : ℕ) (f : PreL → PreL)

@[simp] theorem prel_modifyPrel (y : ℕ) :
    (w.modifyPrel x f).ti.prel y = if y = x then f (w.ti.prel x) else w.ti.prel y := by
  simp [modifyPrel, Function.update_apply]

@[simp] theorem postl_modifyPrel : (w.modifyPrel x f).ti.postl = w.ti.postl := rfl

@[simp] theorem postr_modifyPrel : (w.modifyPrel x f).ti.postr = w.ti.postr := rfl

@[simp] theorem tree_size_modifyPrel : (w.modifyPrel x f).ti.tree_size_ = w.ti.tree_size_ := rfl

@[simp] theorem ld_modifyPrel : (w.modifyPrel x f).ld = w.ld := rfl

@[simp] theorem start_preorder_modifyPrel :
    (w.modifyPrel x f).start_preorder = w.start_preorder := rfl

@[simp] theorem start_postorder_modifyPrel :
    (w.modifyPrel x f).start_postorder = w.start_postorder := rfl

section Node

variable (this : ℕ) (label_id : LabelId) (c : Children)

theorem prel_setNode (y : ℕ) :
    (w.setNode this label_id c).ti.prel y = if y = this then { w.ti.prel this with
      size := c.desc_sum + 1
      children := c.children_preorders
      postl := w.start_postorder
      postr := w.ti.tree_size_ - 1 - this
      label_id
      lld := match c.first_child_postorder with
        | none => this
        | some _ => (w.ti.prel (this + 1)).lld
      rld := this + c.desc_sum } else w.ti.prel y := Function.update_apply ..

theorem postl_setNode (y : ℕ) :
    (w.setNode this label_id c).ti.postl y = if y = w.start_postorder then
      { prel := this
        label_id
        lld := match c.first_child_postorder with
          | none => w.start_postorder
          | some first_child_postorder => (w.ti.postl first_child_postorder).lld }
      else w.ti.postl y := Function.update_apply ..

theorem postr_setNode (y : ℕ) :
    (w.setNode this label_id c).ti.postr y = if y = w.ti.tree_size_ - 1 - this then
      { w.ti.postr (w.ti.tree_size_ - 1 - this) with prel := this, label_id }
      else w.ti.postr y := Function.update_apply ..

@[simp] theorem tree_size_setNode :
    (w.setNode this label_id c).ti.tree_size_ = w.ti.tree_size_ := rfl

@[simp] theorem ld_setNode : (w.setNode this label_id c).ld = w.ld := rfl

@[simp] theorem start_preorder_setNode :
    (w.setNode this label_id c).start_preorder = w.start_preorder := rfl

@[simp] theorem start_postorder_setNode :
    (w.setNode this label_id c).start_postorder = w.start_postorder := rfl

variable (cm : CostModel LabelId ℚ) (parent : Option ℕ) (is_rightmost_child : Bool) (size : ℕ)

/-- The costs are in the arrays that are indexed in preorder. -/
theorem addCosts_same :
    (w.addCosts cm this parent is_rightmost_child label_id size).ti.postl = w.ti.postl ∧
      (w.addCosts cm this parent is_rightmost_child label_id size).ti.postr = w.ti.postr ∧
      (w.addCosts cm this parent is_rightmost_child label_id size).ti.tree_size_ =
        w.ti.tree_size_ ∧
      (w.addCosts cm this parent is_rightmost_child label_id size).ld = w.ld ∧
      (w.addCosts cm this parent is_rightmost_child label_id size).start_preorder =
        w.start_preorder ∧
      (w.addCosts cm this parent is_rightmost_child label_id size).start_postorder =
        w.start_postorder := by
  cases parent <;> exact ⟨rfl, rfl, rfl, rfl, rfl, rfl⟩

theorem prel_addCosts_this (h : parent ≠ some this) :
    (w.addCosts cm this parent is_rightmost_child label_id size).ti.prel this =
      (w.ti.prel this).add size size (cm.del label_id) (cm.ins label_id) := by
  cases parent with
  | none => simp [addCosts, PreL.add]
  | some p =>
    have hne : this ≠ p := fun heq => h (by rw [heq])
    simp [addCosts, PreL.add, hne]

theorem prel_addCosts_parent {p : ℕ} (h : p ≠ this) :
    (w.addCosts cm this (some p) is_rightmost_child label_id size).ti.prel p =
      { w.ti.prel p with
        cost_left := (w.ti.prel p).cost_left + (w.ti.prel this).cost_left +
          (if this ≠ p + 1 then (size : ℤ) else 0)
        cost_right := (w.ti.prel p).cost_right + (w.ti.prel this).cost_right +
          (if ¬ is_rightmost_child then (size : ℤ) else 0)
        subtree_del_cost := (w.ti.prel p).subtree_del_cost +
          ((w.ti.prel this).subtree_del_cost + cm.del label_id)
        subtree_ins_cost := (w.ti.prel p).subtree_ins_cost +
          ((w.ti.prel this).subtree_ins_cost + cm.ins label_id) } := by
  simp [addCosts, h]

theorem prel_addCosts_of_ne {y : ℕ} (hthis : y ≠ this) (hparent : parent ≠ some y) :
    (w.addCosts cm this parent is_rightmost_child label_id size).ti.prel y = w.ti.prel y := by
  cases parent with
  | none => simp [addCosts, hthis]
  | some p =>
    have hne : y ≠ p := fun heq => hparent (by rw [heq])
    simp [addCosts, hthis, hne]

end Node

end Walk

theorem size_index_tree (n : Node) (ld : LabelDictionary) :
    (tree_distance.index_tree n ld).1.size = n.size := by
  obtain ⟨-, -, hmap⟩ := index_tree_spec.1 n ld
  rw [hmap _ fun _ _ h => h, size, (values_map _).1, List.length_map, size]

theorem forestSize_index_children (ns : List Node) (ld : LabelDictionary) :
    forestSize (tree_distance.index_children ns ld).1 = forestSize ns := by
  obtain ⟨-, -, hmap⟩ := index_tree_spec.2 ns ld
  rw [hmap _ fun _ _ h => h, forestSize, (values_map _).2, List.length_map, forestSize]

/-- What the walk over a tree does. -/
structure TreeWalked (cm : CostModel LabelId ℚ) (t : Rose LabelId) (parent : Option ℕ)
    (is_rightmost_child : Bool) (w w' : Walk) : Prop where
  walked : Walked cm (entries t parent w.start_preorder w.start_postorder) t.size w w'
  prel_frame : ∀ x, x < w.start_preorder ∨ w.start_preorder + t.size ≤ x → parent ≠ some x →
    w'.ti.prel x = w.ti.prel x
  prel_parent : ∀ x, parent = some x → w'.ti.prel x = (w.ti.prel x).add
    (leftRest t + if w.start_preorder ≠ x + 1 then t.size else 0)
    (rightRest t + if ¬ is_rightmost_child then t.size else 0) (cm.delAll [t]) (cm.insAll [t])

/-- What the loop over the children of a node does. -/
structure ForestWalked (cm : CostModel LabelId ℚ) (ts : List (Rose LabelId)) (this : ℕ)
    (w w' : Walk) : Prop where
  walked : Walked cm (forestEntries ts this w.start_preorder w.start_postorder) (forestSize ts) w w'
  prel_frame : ∀ x, x < w.start_preorder ∨ w.start_preorder + forestSize ts ≤ x → x ≠ this →
    w'.ti.prel x = w.ti.prel x
  prel_this : w'.ti.prel this = (w.ti.prel this).add
    (leftRests (w.start_preorder = this + 1) ts) (rightRests ts) (cm.delAll ts) (cm.insAll ts)

/-- The variables of the loop when it has met all children. -/
def childrenOf (p q : ℕ) (ts : List (Rose LabelId)) : Children where
  desc_sum := forestSize ts
  children_preorders := childNumbers p ts
  first_child_postorder := ts.head?.map fun t => q + t.size - 1

/-- The variables of the loop when it has met more children. -/
def Children.extend (c : Children) (p q : ℕ) (ts : List (Rose LabelId)) : Children where
  desc_sum := c.desc_sum + forestSize ts
  children_preorders := c.children_preorders ++ childNumbers p ts
  first_child_postorder := c.first_child_postorder.or (ts.head?.map fun t => q + t.size - 1)

theorem Children.extend_empty (p q : ℕ) (ts : List (Rose LabelId)) :
    Children.extend {} p q ts = childrenOf p q ts := by
  simp [extend, childrenOf]

/-- A node after its children. -/
theorem ForestWalked.node {cm : CostModel LabelId ℚ} {ts : List (Rose LabelId)} {w w' : Walk}
    {ld : LabelDictionary} {parent : Option ℕ} (a : LabelId) (is_rightmost_child : Bool)
    (h : ForestWalked cm ts w.start_preorder
      { w with ld, start_preorder := w.start_preorder + 1 } w')
    (hparent : ∀ x, parent = some x → x < w.start_preorder)
    (hroot : w.ti.prel w.start_preorder = { parent := parent.elim (-1) fun p => (p : ℤ) })
    (hsize : w.start_preorder + (forestSize ts + 1) ≤ w.ti.tree_size_) :
    TreeWalked cm (.node a ts) parent is_rightmost_child w
      ((w'.setNode w.start_preorder a
        (childrenOf (w.start_preorder + 1) w.start_postorder ts)).addCosts cm w.start_preorder
          parent is_rightmost_child a (forestSize ts + 1)).nextPostorder := by
  obtain ⟨hpostl, hpostr, hsize', -, hpre, hpost⟩ := (w'.setNode w.start_preorder a
    (childrenOf (w.start_preorder + 1) w.start_postorder ts)).addCosts_same w.start_preorder a cm
      parent is_rightmost_child (forestSize ts + 1)
  have hfirst : w'.start_postorder = w.start_postorder + forestSize ts := h.walked.postorder
  have hbounds := entries_bounds.2 ts w.start_preorder (w.start_preorder + 1) w.start_postorder
  have hne : parent ≠ some w.start_preorder := fun heq => (hparent _ heq).false
  have hthis : w'.ti.prel w.start_preorder = PreL.add { parent := parent.elim (-1) fun p => (p : ℤ) }
      (leftRests true ts) (rightRests ts) (cm.delAll ts) (cm.insAll ts) := by
    rw [h.prel_this, ← hroot]
    simp
  have hlld : (match (childrenOf (w.start_preorder + 1) w.start_postorder ts).first_child_postorder
      with
      | none => w.start_preorder
      | some _ => (w'.ti.prel (w.start_preorder + 1)).lld) =
      w.start_preorder + leftDepth (.node a ts) := by
    cases ts with
    | nil => rfl
    | cons t ts =>
      have hmem := mem_forestEntries_head t ts w.start_preorder (w.start_preorder + 1)
        w.start_postorder
      refine (congrArg PreL.lld (h.walked.prel _ hmem)).trans ?_
      rw [leftDepth, Nat.add_comm (leftDepth t), ← Nat.add_assoc]
      rfl
  have hllp : (match (childrenOf (w.start_preorder + 1) w.start_postorder ts).first_child_postorder
      with
      | none => w'.start_postorder
      | some first_child_postorder => (w'.ti.postl first_child_postorder).lld) =
      w.start_postorder := by
    cases ts with
    | nil => exact hfirst
    | cons t ts =>
      have hmem := mem_forestEntries_head t ts w.start_preorder (w.start_preorder + 1)
        w.start_postorder
      exact congrArg PostL.lld (h.walked.postl _ hmem)
  refine ⟨⟨?_, ?_, ?_, ?_, ?_, ?_, ?_, ?_⟩, ?_, ?_⟩
  · exact hsize'.trans h.walked.tree_size
  · exact hpre.trans (h.walked.preorder.trans (by simp; omega))
  · exact (congrArg (· + 1) (hpost.trans hfirst)).trans (by simp; omega)
  · intro e he
    rcases List.mem_cons.mp he with rfl | he
    · refine (Walk.prel_addCosts_this _ _ _ cm _ _ _ hne).trans ?_
      rw [Walk.prel_setNode, if_pos rfl, hlld, hthis]
      ext <;> simp [PreL.add, preOf, Entry.post, childrenOf, hfirst, h.walked.tree_size, children,
        value, leftRest, rightRest] <;> exact add_comm _ _
    · obtain ⟨hlt, -, -, -⟩ := hbounds e he
      refine (Walk.prel_addCosts_of_ne _ _ _ cm _ _ _ (by omega) fun heq => ?_).trans ?_
      · have := hparent _ heq
        omega
      · rw [Walk.prel_setNode, if_neg (by omega), h.walked.prel e he]
  · intro e he
    refine (congrFun hpostl _).trans ?_
    rw [Walk.postl_setNode, hllp, hfirst]
    rcases List.mem_cons.mp he with rfl | he
    · exact if_pos rfl
    · obtain ⟨-, -, -, hle⟩ := hbounds e he
      have := e.tree.size_pos
      rw [if_neg (by simp only [Entry.post]; omega), h.walked.postl e he]
  · intro e he
    have heq : (((w'.setNode w.start_preorder a
        (childrenOf (w.start_preorder + 1) w.start_postorder ts)).addCosts cm w.start_preorder
          parent is_rightmost_child a (forestSize ts + 1)).nextPostorder).ti.postr = _ := hpostr
    rw [heq, Walk.postr_setNode, h.walked.tree_size]
    rcases List.mem_cons.mp he with rfl | he
    · rw [if_pos rfl]
      exact ⟨rfl, rfl⟩
    · obtain ⟨hlt, hle, -, -⟩ := hbounds e he
      have := e.tree.size_pos
      rw [if_neg (by dsimp only; omega)]
      exact h.walked.postr e he
  · intro y hy
    refine (congrFun hpostl _).trans ?_
    rw [size_node] at hy
    rw [Walk.postl_setNode, if_neg (by omega)]
    exact h.walked.postl_frame y (by dsimp only; omega)
  · intro z hz
    refine (congrFun hpostr _).trans ?_
    rw [size_node] at hz
    rw [Walk.postr_setNode, h.walked.tree_size, if_neg (hz _ le_rfl (by omega))]
    exact h.walked.postr_frame z fun x hx hlt => hz x (by dsimp only at hx; omega)
      (by dsimp only at hlt; omega)
  · intro x hx hxp
    rw [size_node] at hx
    refine (Walk.prel_addCosts_of_ne _ _ _ cm _ _ _ (by omega) hxp).trans ?_
    rw [Walk.prel_setNode, if_neg (by omega)]
    exact h.prel_frame x (by dsimp only; omega) (by omega)
  · rintro x rfl
    have hlt := hparent x rfl
    refine (Walk.prel_addCosts_parent _ _ _ cm _ _ (by omega)).trans ?_
    rw [Walk.prel_setNode, Walk.prel_setNode, if_neg (by omega), if_pos rfl, hthis,
      h.prel_frame x (by dsimp only; omega) (by omega)]
    ext <;> simp [PreL.add, leftRest, rightRest, add_comm, add_assoc, add_left_comm]

theorem PreL.add_add (x : PreL) (left right left' right' : ℕ) (del ins del' ins' : ℚ) :
    (x.add left right del ins).add left' right' del' ins' =
      x.add (left + left') (right + right') (del + del') (ins + ins') := by
  ext <;> simp [PreL.add, add_assoc]

/-- A child and then the other ones. -/
theorem TreeWalked.cons {cm : CostModel LabelId ℚ} {t : Rose LabelId} {ts : List (Rose LabelId)}
    {this : ℕ} {w w₁ w₂ : Walk}
    (ht : TreeWalked cm t (some this) ts.isEmpty
      (w.modifyPrel w.start_preorder fun x => { x with parent := this }) w₁)
    (hts : ForestWalked cm ts this w₁ w₂) (hthis : this < w.start_preorder)
    (hsize : w.start_preorder + forestSize (t :: ts) ≤ w.ti.tree_size_) :
    ForestWalked cm (t :: ts) this w w₂ := by
  have hpre : w₁.start_preorder = w.start_preorder + t.size := ht.walked.preorder
  have hpost : w₁.start_postorder = w.start_postorder + t.size := ht.walked.postorder
  have htree : w₁.ti.tree_size_ = w.ti.tree_size_ := ht.walked.tree_size
  have hpos := t.size_pos
  rw [forestSize_cons] at hsize
  have hbounds := entries_bounds.1 t (some this) w.start_preorder w.start_postorder
  refine ⟨⟨?_, ?_, ?_, ?_, ?_, ?_, ?_, ?_⟩, ?_, ?_⟩
  · exact hts.walked.tree_size.trans htree
  · rw [hts.walked.preorder, hpre, forestSize_cons, Nat.add_assoc]
  · rw [hts.walked.postorder, hpost, forestSize_cons, Nat.add_assoc]
  · intro e he
    rcases List.mem_append.mp he with he | he
    · obtain ⟨hle, hlt, -, -⟩ := hbounds e he
      have := e.tree.size_pos
      rw [hts.prel_frame e.pre (by omega) (by omega)]
      exact ht.walked.prel e he
    · rw [← hpre, ← hpost] at he
      rw [hts.walked.prel e he, htree]
  · intro e he
    rcases List.mem_append.mp he with he | he
    · obtain ⟨-, -, hle, hlt⟩ := hbounds e he
      have := e.tree.size_pos
      rw [hts.walked.postl_frame e.post (by simp only [Entry.post]; omega)]
      exact ht.walked.postl e he
    · rw [← hpre, ← hpost] at he
      exact hts.walked.postl e he
  · intro e he
    rcases List.mem_append.mp he with he | he
    · obtain ⟨hle, hlt, -, -⟩ := hbounds e he
      have := e.tree.size_pos
      rw [hts.walked.postr_frame _ fun x hx hx' => by omega]
      exact ht.walked.postr e he
    · rw [← hpre, ← hpost] at he
      rw [← htree]
      exact hts.walked.postr e he
  · intro y hy
    rw [forestSize_cons] at hy
    rw [hts.walked.postl_frame y (by omega)]
    exact ht.walked.postl_frame y (by simp only [Walk.start_postorder_modifyPrel]; omega)
  · intro z hz
    rw [forestSize_cons] at hz
    rw [hts.walked.postr_frame z fun x hx hx' => by rw [htree]; exact hz x (by omega) (by omega)]
    exact ht.walked.postr_frame z fun x hx hx' => hz x hx
      (by simp only [Walk.start_preorder_modifyPrel] at hx'; omega)
  · intro x hx hne
    rw [forestSize_cons] at hx
    rw [hts.prel_frame x (by omega) hne, ht.prel_frame x
      (by simp only [Walk.start_preorder_modifyPrel]; omega) (by simpa using hne.symm),
      Walk.prel_modifyPrel, if_neg (by omega)]
  · rw [hts.prel_this, ht.prel_parent this rfl, PreL.add_add, Walk.prel_modifyPrel,
      if_neg (by omega), hpre, Walk.start_preorder_modifyPrel,
      decide_eq_false (by omega : ¬ w.start_preorder + t.size = this + 1)]
    obtain ⟨a, cs⟩ := t
    by_cases hp : w.start_preorder = this + 1 <;> cases ts <;>
      simp [hp, leftRests, rightRests, PreL.add]

theorem tree_index_tree_node (l : StringLabel) (cs : List Node) (ld : LabelDictionary) :
    tree_distance.index_tree (.node l cs) ld =
      (.node (ld.insert l).1 (tree_distance.index_children cs (ld.insert l).2).1,
        (tree_distance.index_children cs (ld.insert l).2).2) := rfl

theorem tree_index_children_cons (n : Node) (ns : List Node) (ld : LabelDictionary) :
    tree_distance.index_children (n :: ns) ld =
      ((tree_distance.index_tree n ld).1 ::
        (tree_distance.index_children ns (tree_distance.index_tree n ld).2).1,
        (tree_distance.index_children ns (tree_distance.index_tree n ld).2).2) := rfl

/-- The walk describes each node that it meets. -/
theorem index_tree_recursion_spec (cm : CostModel LabelId ℚ) :
    (∀ (n : Node) (parent : Option ℕ) (is_rightmost_child : Bool) (w : Walk),
      (∀ x, parent = some x → x < w.start_preorder) →
      w.ti.prel w.start_preorder = { parent := parent.elim (-1) fun p => (p : ℤ) } →
      (∀ x, w.start_preorder < x → x < w.start_preorder + n.size → w.ti.prel x = {}) →
      w.start_preorder + n.size ≤ w.ti.tree_size_ →
        (index_tree_recursion cm n parent is_rightmost_child w).1 = n.size ∧
        (index_tree_recursion cm n parent is_rightmost_child w).2.ld =
          (tree_distance.index_tree n w.ld).2 ∧
        TreeWalked cm (tree_distance.index_tree n w.ld).1 parent is_rightmost_child w
          (index_tree_recursion cm n parent is_rightmost_child w).2) ∧
    ∀ (ns : List Node) (this : ℕ) (c : Children) (w : Walk), this < w.start_preorder →
      (∀ x, w.start_preorder ≤ x → x < w.start_preorder + forestSize ns → w.ti.prel x = {}) →
      w.start_preorder + forestSize ns ≤ w.ti.tree_size_ →
        (index_children cm this ns c w).1 = c.extend w.start_preorder w.start_postorder
          (tree_distance.index_children ns w.ld).1 ∧
        (index_children cm this ns c w).2.ld = (tree_distance.index_children ns w.ld).2 ∧
        ForestWalked cm (tree_distance.index_children ns w.ld).1 this w
          (index_children cm this ns c w).2 := by
  refine forest_induction ?_ ?_ ?_
  · intro l cs ih parent is_rightmost_child w hparent hroot hfresh hsize
    rw [size_node] at hsize
    obtain ⟨hc, hld, hwalked⟩ := ih w.start_preorder {}
      { w with ld := (w.ld.insert l).2, start_preorder := w.start_preorder + 1 }
      (Nat.lt_succ_self _) (fun x hx hlt => hfresh x hx (by rw [size_node]; dsimp only at hlt; omega))
      (by dsimp only; omega)
    rw [Children.extend_empty] at hc
    have hsizes := forestSize_index_children cs (w.ld.insert l).2
    rw [tree_index_tree_node]
    unfold index_tree_recursion
    dsimp only
    rw [hc]
    refine ⟨congrArg (· + 1) hsizes, ?_, ?_⟩
    · obtain ⟨-, -, -, hld', -, -⟩ := Walk.addCosts_same
        ((index_children cm w.start_preorder cs {} { w with
          ld := (w.ld.insert l).2, start_preorder := w.start_preorder + 1 }).2.setNode
            w.start_preorder (w.ld.insert l).1 (childrenOf (w.start_preorder + 1) w.start_postorder
              (tree_distance.index_children cs (w.ld.insert l).2).1)) w.start_preorder
        (w.ld.insert l).1 cm parent is_rightmost_child
        (forestSize (tree_distance.index_children cs (w.ld.insert l).2).1 + 1)
      exact hld'.trans hld
    · exact hwalked.node _ _ hparent hroot (by rw [hsizes]; exact hsize)
  · intro this c w hthis hfresh hsize
    refine ⟨by simp [index_children, tree_distance.index_children, Children.extend, childNumbers],
      rfl, ⟨rfl, rfl, rfl, ?_, ?_, ?_, ?_, ?_⟩, ?_, ?_⟩
    · exact fun e he => nomatch he
    · exact fun e he => nomatch he
    · exact fun e he => nomatch he
    · exact fun y _ => rfl
    · exact fun z _ => rfl
    · exact fun x _ _ => rfl
    · simp [index_children, tree_distance.index_children, leftRests, rightRests, PreL.add]
  · intro n ns ihn ihns this c w hthis hfresh hsize
    rw [forestSize_cons] at hsize
    have hn := n.size_pos
    obtain ⟨hfst, hld, hn⟩ := ihn (some this) ns.isEmpty
      (w.modifyPrel w.start_preorder fun x => { x with parent := this })
      (by rintro x ⟨⟩; exact hthis) (by
        rw [Walk.prel_modifyPrel, Walk.start_preorder_modifyPrel, if_pos rfl,
          hfresh _ le_rfl (by rw [forestSize_cons]; omega)]
        rfl) (fun x hx hlt => by
        simp only [Walk.start_preorder_modifyPrel] at hx hlt
        rw [Walk.prel_modifyPrel, if_neg (by omega), hfresh x (by omega)
          (by rw [forestSize_cons]; omega)]) (by
        simp only [Walk.start_preorder_modifyPrel, Walk.tree_size_modifyPrel]
        omega)
    set w₁ := (index_tree_recursion cm n (some this) ns.isEmpty
      (w.modifyPrel w.start_preorder fun x => { x with parent := this })).2 with hw₁
    rw [Walk.ld_modifyPrel] at hld hn
    have hsize₁ := size_index_tree n w.ld
    have hpre : w₁.start_preorder = w.start_preorder + n.size :=
      hn.walked.preorder.trans (by rw [hsize₁]; rfl)
    have hpost : w₁.start_postorder = w.start_postorder + n.size :=
      hn.walked.postorder.trans (by rw [hsize₁]; rfl)
    obtain ⟨hc, hlds, hns⟩ := ihns this
      { desc_sum := c.desc_sum + n.size
        children_preorders := c.children_preorders ++ [w.start_preorder]
        first_child_postorder := c.first_child_postorder.or (some (w₁.start_postorder - 1)) } w₁
      (by omega) (fun x hx hlt => by
        rw [hn.prel_frame x (by rw [Walk.start_preorder_modifyPrel, hsize₁]; omega) (by simp; omega),
          Walk.prel_modifyPrel, if_neg (by omega),
          hfresh x (by omega) (by rw [forestSize_cons]; omega)])
      (by rw [hpre, hn.walked.tree_size, Walk.tree_size_modifyPrel]; omega)
    rw [hld] at hc hlds hns
    have hempty : ns.isEmpty =
        (tree_distance.index_children ns (tree_distance.index_tree n w.ld).2).1.isEmpty := by
      cases ns <;> rfl
    rw [tree_index_children_cons]
    unfold index_children
    dsimp only
    rw [hfst, ← hw₁]
    refine ⟨hc.trans ?_, hlds, TreeWalked.cons (hempty ▸ hn) hns hthis ?_⟩
    · simp only [Children.extend, forestSize_cons, childNumbers, hsize₁, hpre, hpost,
        List.head?_cons, Option.map_some]
      cases c.first_child_postorder <;> simp [Nat.add_assoc]
    · rw [forestSize_cons, hsize₁, forestSize_index_children]
      exact hsize

/-! ## The last leaves -/

/-- The number of the last child. -/
theorem exists_last_child (ts : List (Rose LabelId)) (hts : ts ≠ []) (parent p q : ℕ) :
    ∃ e ∈ forestEntries ts parent p q, e.pre = (childNumbers p ts).getLastD 0 ∧
      e.pre + e.tree.size = p + forestSize ts := by
  induction ts generalizing p q with
  | nil => exact absurd rfl hts
  | cons t ts ih =>
    cases ts with
    | nil => exact ⟨_, mem_forestEntries_head t [] parent p q, rfl, by simp⟩
    | cons u ts =>
      obtain ⟨e, he, hlast, hsize⟩ := ih (List.cons_ne_nil _ _) (p + t.size) (q + t.size)
      refine ⟨e, List.mem_append_right _ he, ?_, ?_⟩
      · rw [hlast]
        simp [childNumbers]
      · rw [hsize, forestSize_cons t, Nat.add_assoc]

/-- An index says of each node what the tree says. -/
structure Describes (cm : CostModel LabelId ℚ) (t : Rose LabelId) (ti : TreeIndex) : Prop where
  tree_size : ti.tree_size_ = t.size
  prel : ∀ e ∈ entries t none 0 0, ti.prel e.pre = preOf cm t.size e
  postl : ∀ e ∈ entries t none 0 0, ti.postl e.post = ⟨e.pre, e.tree.value, e.first⟩
  postr : ∀ e ∈ entries t none 0 0,
    ti.postr (t.size - 1 - e.pre) = ⟨e.pre, e.tree.value, t.size - e.pre - e.tree.size⟩

/-- The arrays when the loop of `fill_rld` has met the first `k` numbers. -/
structure Filled (t : Rose LabelId) (ti ti' : TreeIndex) (k : ℕ) : Prop where
  same : ti' = { ti with postr := ti'.postr }
  prel : ∀ i, (ti'.postr i).prel = (ti.postr i).prel
  label_id : ∀ i, (ti'.postr i).label_id = (ti.postr i).label_id
  rld : ∀ e ∈ entries t none 0 0, t.size - 1 - e.pre < k →
    (ti'.postr (t.size - 1 - e.pre)).rld = t.size - e.pre - e.tree.size

variable {cm : CostModel LabelId ℚ} {t : Rose LabelId} {ti ti' : TreeIndex} {k : ℕ}

theorem Filled.step (hprel : ∀ e ∈ entries t none 0 0, ti.prel e.pre = preOf cm t.size e)
    (hpostr : ∀ e ∈ entries t none 0 0, (ti.postr (t.size - 1 - e.pre)).prel = e.pre)
    (h : Filled t ti ti' k) (hk : k < t.size) : Filled t ti (fill_rld_step ti' k) (k + 1) := by
  obtain ⟨e, he, hpre⟩ := exists_entry_pre.1 t none 0 0 (t.size - 1 - k) (Nat.zero_le _) (by omega)
  have hk' : t.size - 1 - e.pre = k := by omega
  have hprel' : ti'.prel = ti.prel := by rw [h.same]
  have hnode : (ti'.postr k).prel = e.pre := by
    rw [h.prel, ← hk']
    exact hpostr e he
  have hbound := (entries_bounds.1 t none 0 0 e he).2.1
  have hrld : (if (ti'.prel (ti'.postr k).prel).size = 1 then k
      else (ti'.postr (ti'.prel ((ti'.prel (ti'.postr k).prel).children.getLastD 0)).postr).rld) =
      t.size - e.pre - e.tree.size := by
    rw [hnode, hprel', hprel e he]
    by_cases hleaf : e.tree.size = 1
    · rw [if_pos (by exact hleaf), hleaf]
      omega
    · rw [if_neg (by exact hleaf)]
      have hcs : e.tree.children ≠ [] := by
        rcases htree : e.tree with ⟨a, cs⟩
        rintro rfl
        exact hleaf (by rw [htree]; rfl)
      have hsize : e.tree.size = forestSize e.tree.children + 1 := by
        rcases e.tree with ⟨a, cs⟩
        rfl
      obtain ⟨f, hf, hlast, hend⟩ := exists_last_child e.tree.children hcs e.pre (e.pre + 1) e.first
      have hmem : f ∈ entries t none 0 0 := by
        refine entries_trans.1 t none 0 0 e he f ?_
        rw [entries_eq_cons]
        exact List.mem_cons_of_mem _ hf
      have hlt := (entries_bounds.2 e.tree.children e.pre (e.pre + 1) e.first f hf).1
      have hpos := f.tree.size_pos
      have hchild : (preOf cm t.size e).children.getLastD 0 = f.pre := hlast.symm
      rw [hchild, hprel f hmem]
      refine (h.rld f hmem (by omega)).trans ?_
      omega
  have hstep : fill_rld_step ti' k = { ti' with
      postr := Function.update ti'.postr k
        { ti'.postr k with rld := t.size - e.pre - e.tree.size } } := by
    rw [← hrld]
    rfl
  rw [hstep]
  refine ⟨?_, fun i => ?_, fun i => ?_, fun f hf hlt => ?_⟩
  · rw [h.same]
  · by_cases hi : i = k
    · subst hi
      simp [h.prel]
    · simp [Function.update_of_ne hi, h.prel]
  · by_cases hi : i = k
    · subst hi
      simp [h.label_id]
    · simp [Function.update_of_ne hi, h.label_id]
  · dsimp only
    by_cases hi : t.size - 1 - f.pre = k
    · have hf' := entries_bounds.1 t none 0 0 f hf
      have hpos := f.tree.size_pos
      have hfe : f.pre = e.pre := by omega
      have hsame : f.tree.size = e.tree.size := by
        have hf := hprel f hf
        rw [hfe, hprel e he] at hf
        exact (congrArg PreL.size hf).symm
      rw [hfe, hsame, hk', Function.update_self]
    · rw [Function.update_of_ne hi]
      exact h.rld f hf (by omega)

theorem Filled.loop (hprel : ∀ e ∈ entries t none 0 0, ti.prel e.pre = preOf cm t.size e)
    (hpostr : ∀ e ∈ entries t none 0 0, (ti.postr (t.size - 1 - e.pre)).prel = e.pre)
    (hk : k ≤ t.size) : Filled t ti ((List.range k).foldl fill_rld_step ti) k := by
  induction k with
  | zero => exact ⟨rfl, fun _ => rfl, fun _ => rfl, fun e _ hlt => absurd hlt (Nat.not_lt_zero _)⟩
  | succ k ih =>
    rw [List.range_succ, List.foldl_append]
    exact (ih (by omega)).step hprel hpostr (by omega)

/-- Every array of a tree index describes the tree. -/
theorem index_tree_describes (cm : CostModel LabelId ℚ) (n : Node) (ld : LabelDictionary) :
    Describes cm (tree_distance.index_tree n ld).1 (index_tree cm n ld).1 ∧
      (index_tree cm n ld).2 = (tree_distance.index_tree n ld).2 := by
  obtain ⟨-, hld, ⟨hwalked, -, -⟩⟩ := (index_tree_recursion_spec cm).1 n none false
    { ti :=
        { tree_size_ := n.size
          prel := fun _ => {}
          postl := fun _ => {}
          postr := fun _ => {} }
      ld
      start_preorder := 0
      start_postorder := 0 }
    (fun x hx => nomatch hx) rfl (fun x _ _ => rfl) (by simp)
  have hsize := size_index_tree n ld
  set t := (tree_distance.index_tree n ld).1 with ht
  set ti := (index_tree_recursion cm n none false _).2.ti with hti
  have hprel : ∀ e ∈ entries t none 0 0, ti.prel e.pre = preOf cm t.size e := by
    rw [hsize]
    exact hwalked.prel
  have hpostr : ∀ e ∈ entries t none 0 0, (ti.postr (t.size - 1 - e.pre)).prel = e.pre ∧
      (ti.postr (t.size - 1 - e.pre)).label_id = e.tree.value := by
    rw [hsize]
    exact hwalked.postr
  have hfill := Filled.loop hprel (fun e he => (hpostr e he).1) le_rfl
  have hroot : (ti.prel 0).size = t.size := by
    rw [hprel _ (mem_entries_root t none 0 0)]
    rfl
  have heq : (index_tree cm n ld).1 = (List.range t.size).foldl fill_rld_step ti := by
    rw [← hroot]
    rfl
  refine ⟨⟨?_, ?_, ?_, ?_⟩, hld⟩
  · rw [heq, hfill.same, hsize]
    exact hwalked.tree_size
  · intro e he
    rw [heq, hfill.same]
    exact hprel e he
  · intro e he
    rw [heq, hfill.same]
    exact hwalked.postl e he
  · intro e he
    have hlt := (entries_bounds.1 t none 0 0 e he).2.1
    have hpos := e.tree.size_pos
    rw [heq]
    exact PostR.ext ((hfill.prel _).trans (hpostr e he).1) ((hfill.label_id _).trans (hpostr e he).2)
      (hfill.rld e he (by omega))

/-- Every entry of the arrays is about one node of the tree, and each postorder is a numbering of
all nodes. The dictionary is the one that the labels in preorder leave. -/
theorem index_tree_arrays (cm : CostModel LabelId ℚ) (n : Node) (ld : LabelDictionary) :
    let t := (tree_distance.index_tree n ld).1
    let ti := (index_tree cm n ld).1
    ti.tree_size_ = t.size ∧
      (∀ x < ti.tree_size_, ∃ e ∈ entries t none 0 0, e.pre = x ∧ ti.prel x = preOf cm t.size e ∧
        ti.postl (ti.prel x).postl = ⟨x, e.tree.value, e.first⟩ ∧
        ti.postr (ti.prel x).postr = ⟨x, e.tree.value, t.size - x - e.tree.size⟩) ∧
      (∀ i < ti.tree_size_, (ti.prel (ti.postl i).prel).postl = i ∧
        (ti.prel (ti.postr i).prel).postr = i) ∧
      (index_tree cm n ld).2 = (tree_distance.index_tree n ld).2 := by
  intro t ti
  obtain ⟨hti, hld⟩ : Describes cm t ti ∧ _ := index_tree_describes cm n ld
  refine ⟨hti.tree_size, fun x hx => ?_, fun i hi => ⟨?_, ?_⟩, hld⟩
  · rw [hti.tree_size] at hx
    obtain ⟨e, he, rfl⟩ := exists_entry_pre.1 t none 0 0 x (Nat.zero_le x) (by omega)
    refine ⟨e, he, rfl, hti.prel e he, ?_, ?_⟩
    · rw [hti.prel e he]
      exact hti.postl e he
    · rw [hti.prel e he]
      exact hti.postr e he
  · rw [hti.tree_size] at hi
    obtain ⟨e, he, rfl⟩ := exists_node_post (e := root t) (Nat.zero_le i)
      (by simp only [Entry.post, root]; omega)
    rw [hti.postl e he, hti.prel e he]
    rfl
  · rw [hti.tree_size] at hi
    obtain ⟨e, he, hpre⟩ := exists_entry_pre.1 t none 0 0 (t.size - 1 - i) (Nat.zero_le _) (by omega)
    have hi' : t.size - 1 - e.pre = i := by omega
    rw [← hi', hti.postr e he, hti.prel e he]
    rfl

end ditto.tree_index
