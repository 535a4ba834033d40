-- The distance along left and right paths (apted_tree_index_impl.h of
-- tree-similarity). A table has the distances of all pairs of ranges in a
-- postorder, and the distances of pairs of subtrees go into a matrix that all
-- tables share. The numbers are floats on the way, so they are exact for
-- trees of small weight.
import Ditto.Lib.Single
import Ditto.TreeIndex
import Mathlib.Algebra.Order.BigOperators.Group.List

namespace ditto.apted

open Rose TreeEdit tree_distance tree_index

/-! ## The model -/

/-- The arrays of an index by the numbers of one of its postorders. -/
structure Numbering where
  prel_to_post : ℕ → ℕ
  post_to_prel : ℕ → ℕ
  post_to_label_id : ℕ → LabelId
  post_to_leaf : ℕ → ℕ

/-- The order of siblings. -/
inductive Side where
  | left
  | right
  deriving DecidableEq

/-- The postorder from left to right, and the one from right to left. -/
def Side.numbering (ti : TreeIndex) : Side → Numbering
  | left =>
    { prel_to_post := fun x => (ti.prel x).postl
      post_to_prel := fun i => (ti.postl i).prel
      post_to_label_id := fun i => (ti.postl i).label_id
      post_to_leaf := fun i => (ti.postl i).lld }
  | right =>
    { prel_to_post := fun x => (ti.prel x).postr
      post_to_prel := fun i => (ti.postr i).prel
      post_to_label_id := fun i => (ti.postr i).label_id
      post_to_leaf := fun i => (ti.postr i).rld }

/-- The matrices of the algorithm. -/
structure Tables where
  forestdist : ℕ → ℕ → ℚ
  delta_ : ℕ → ℕ → ℚ
  subproblem_counter_ : ℕ

namespace Tables

def setDist (s : Tables) (i j : ℕ) (d : ℚ) : Tables :=
  { s with forestdist := Function.update s.forestdist i (Function.update (s.forestdist i) j d) }

/-- The entry of `delta_` for a node of the first tree and one of the second. -/
def delta (s : Tables) (treesSwapped : Bool) (x y : ℕ) : ℚ :=
  if treesSwapped then s.delta_ y x else s.delta_ x y

def setDelta (s : Tables) (treesSwapped : Bool) (x y : ℕ) (d : ℚ) : Tables :=
  if treesSwapped then { s with delta_ := Function.update s.delta_ y (Function.update (s.delta_ y) x d) }
  else { s with delta_ := Function.update s.delta_ x (Function.update (s.delta_ x) y d) }

def count (s : Tables) : Tables := { s with subproblem_counter_ := s.subproblem_counter_ + 1 }

end Tables

/-- The costs for trees that may have been swapped: a delete is then an insert. -/
def ordered (c : CostModel LabelId ℚ) (treesSwapped : Bool) : CostModel LabelId ℚ where
  ren a b := if treesSwapped then c.ren b a else c.ren a b
  del a := if treesSwapped then c.ins a else c.del a
  ins b := if treesSwapped then c.del b else c.ins b

section TreeEditDist

variable (u_type : ℚ → ℚ) (c : CostModel LabelId ℚ) (t1 t2 : Numbering) (i j : ℕ)
  (treesSwapped : Bool)

/-- The body of the loops of `treeEditDist`. Where the source has `i1 + ioff` for the number of a
node, with `ioff = lld - 1` for the first leaf, this is `lld + i1 - 1`. -/
def fill_cell (i1 : ℕ) (s : Tables) (j1 : ℕ) : Tables :=
  let ni := t1.post_to_leaf i + i1 - 1
  let nj := t2.post_to_leaf j + j1 - 1
  let label1 := t1.post_to_label_id ni
  let label2 := t2.post_to_label_id nj
  let x := t1.post_to_prel ni
  let y := t2.post_to_prel nj
  let u := u_type ((ordered c treesSwapped).ren label1 label2)
  let da := toSingle (toDouble (s.forestdist (i1 - 1) j1 + (ordered c treesSwapped).del label1))
  let db := toSingle (toDouble (s.forestdist i1 (j1 - 1) + (ordered c treesSwapped).ins label2))
  let (dc, s') :=
    if t1.post_to_leaf ni = t1.post_to_leaf i ∧ t2.post_to_leaf nj = t2.post_to_leaf j then
      (toSingle (toDouble (s.forestdist (i1 - 1) (j1 - 1) + u)),
        s.setDelta treesSwapped x y (s.forestdist (i1 - 1) (j1 - 1)))
    else
      (toSingle (toDouble (toDouble (s.forestdist (t1.post_to_leaf ni - t1.post_to_leaf i)
        (t2.post_to_leaf nj - t2.post_to_leaf j) + s.delta treesSwapped x y) + u)), s)
  s'.count.setDist i1 j1
    (if da ≥ db then if db ≥ dc then dc else db else if da ≥ dc then dc else da)

/-- The inner loop, over all columns of a row. -/
def fill_row (m : ℕ) (s : Tables) (i1 : ℕ) : Tables :=
  (List.range' 1 m).foldl (fill_cell u_type c t1 t2 i j treesSwapped i1) s

/-- The first column and the first row: only deletes, and only inserts. -/
def fill_borders (n m : ℕ) (s : Tables) : Tables :=
  let s := s.setDist 0 0 0
  let s := (List.range' 1 n).foldl (fun s i1 => s.setDist i1 0 (toDouble (s.forestdist (i1 - 1) 0 +
    (ordered c treesSwapped).del (t1.post_to_label_id (t1.post_to_leaf i + i1 - 1))))) s
  (List.range' 1 m).foldl (fun s j1 => s.setDist 0 j1 (toDouble (s.forestdist 0 (j1 - 1) +
    (ordered c treesSwapped).ins (t2.post_to_label_id (t2.post_to_leaf j + j1 - 1))))) s

/-- The table of two subtrees, by the numbers of their roots in the postorder. -/
def fill_table (s : Tables) : Tables :=
  let n := i - t1.post_to_leaf i + 1
  let m := j - t2.post_to_leaf j + 1
  (List.range' 1 n).foldl (fill_row u_type c t1 t2 i j treesSwapped m)
    (fill_borders c t1 t2 i j treesSwapped n m s)

end TreeEditDist

/-- The table of the subtrees of two nodes. -/
def subtreeDist (u_type : ℚ → ℚ) (side : Side) (c : CostModel LabelId ℚ) (t1 t2 : TreeIndex)
    (it1subtree it2subtree : ℕ) (treesSwapped : Bool) (s : Tables) : Tables :=
  fill_table u_type c (side.numbering t1) (side.numbering t2)
    ((side.numbering t1).prel_to_post it1subtree) ((side.numbering t2).prel_to_post it2subtree)
    treesSwapped s

/-- The model of `treeEditDist`. The cost of a rename is a double here. -/
def treeEditDist := subtreeDist id .left

/-- The model of `revTreeEditDist`. The cost of a rename is a float here. -/
def revTreeEditDist := subtreeDist toSingle .right

/-! ## Exact numbers -/

/-- The costs are natural numbers. -/
def IsNat (q : ℚ) : Prop := ∃ k : ℕ, q = k

theorem isNat_zero : IsNat 0 := ⟨0, by simp⟩

theorem IsNat.add {x y : ℚ} (hx : IsNat x) (hy : IsNat y) : IsNat (x + y) := by
  obtain ⟨k, rfl⟩ := hx
  obtain ⟨m, rfl⟩ := hy
  exact ⟨k + m, by push_cast; rfl⟩

theorem IsNat.nonneg {x : ℚ} (hx : IsNat x) : 0 ≤ x := by
  obtain ⟨k, rfl⟩ := hx
  exact Nat.cast_nonneg k

/-- A number that is a float and a double. -/
structure Exact (q : ℚ) : Prop where
  isNat : IsNat q
  le : q ≤ 2 ^ 24

theorem Exact.single {q : ℚ} (h : Exact q) : toSingle q = q := by
  obtain ⟨⟨k, rfl⟩, hle⟩ := h
  exact toSingle_natCast (by exact_mod_cast hle)

theorem Exact.double {q : ℚ} (h : Exact q) : toDouble q = q := by
  obtain ⟨⟨k, rfl⟩, hle⟩ := h
  have hk : k ≤ 2 ^ 24 := by exact_mod_cast hle
  rcases Nat.eq_zero_or_pos k with rfl | hpos
  · simp [toDouble]
  · exact toDouble_natCast hpos (by omega)

/-- The weights of two lists of trees are so small that all sums of them are floats. -/
structure Fits (c : CostModel LabelId ℚ) (F G : List (Rose LabelId)) : Prop where
  del : ∀ a ∈ forestValues F, IsNat (c.del a)
  ins : ∀ b ∈ forestValues G, IsNat (c.ins b)
  ren : ∀ a ∈ forestValues F, ∀ b ∈ forestValues G, IsNat (c.ren a b)
  ren_le : ∀ a ∈ forestValues F, ∀ b ∈ forestValues G, c.ren a b ≤ c.del a + c.ins b
  total : c.delAll F + c.insAll G ≤ 2 ^ 24

section Fits

variable {c : CostModel LabelId ℚ} {F F' G G' cs ds : List (Rose LabelId)} {a b : LabelId}

theorem sum_le_of_subperm {f : LabelId → ℚ} {as bs : List LabelId} (h : as.Subperm bs)
    (hf : ∀ b ∈ bs, 0 ≤ f b) : (as.map f).sum ≤ (bs.map f).sum := by
  obtain ⟨as', hperm, hsub⟩ := h
  rw [← (hperm.map f).sum_eq]
  refine (hsub.map f).sum_le_sum fun x hx => ?_
  obtain ⟨b, hb, rfl⟩ := List.mem_map.mp hx
  exact hf b hb

theorem Fits.mono (h : Fits c F G) (hF : (forestValues F').Subperm (forestValues F))
    (hG : (forestValues G').Subperm (forestValues G)) : Fits c F' G' where
  del a ha := h.del a (hF.subset ha)
  ins b hb := h.ins b (hG.subset hb)
  ren a ha b hb := h.ren a (hF.subset ha) b (hG.subset hb)
  ren_le a ha b hb := h.ren_le a (hF.subset ha) b (hG.subset hb)
  total := le_trans (add_le_add (sum_le_of_subperm hF fun a ha => (h.del a ha).nonneg)
    (sum_le_of_subperm hG fun b hb => (h.ins b hb).nonneg)) h.total

theorem Fits.isNat_dist (h : Fits c F G) : IsNat (c.dist F G) :=
  CostModel.dist_induction isNat_zero (fun _ _ => IsNat.add) h.del h.ins h.ren

theorem subperm_below (F : List (Rose LabelId)) (a : LabelId) (cs : List (Rose LabelId)) :
    (forestValues (F ++ cs)).Subperm (forestValues (F ++ [.node a cs])) := by
  simp only [forestValues_append, forestValues, values, List.append_nil]
  exact ((List.sublist_cons_self a _).append_left _).subperm

theorem mem_values_last (F : List (Rose LabelId)) (a : LabelId) (cs : List (Rose LabelId)) :
    a ∈ forestValues (F ++ [.node a cs]) := by
  simp [forestValues, values]

theorem Fits.exact_del (h : Fits c (F ++ [.node a cs]) G) :
    Exact (c.dist (F ++ cs) G + c.del a) where
  isNat := (h.mono (subperm_below F a cs) (.refl _)).isNat_dist.add (h.del a (mem_values_last F a cs))
  le := by
    refine le_trans ?_ h.total
    have hle := c.dist_le_total (F ++ cs) G
    simp only [CostModel.delAll_append, CostModel.delAll_cons, CostModel.delAll_nil] at hle ⊢
    linarith

theorem Fits.exact_ins (h : Fits c F (G ++ [.node b ds])) :
    Exact (c.dist F (G ++ ds) + c.ins b) where
  isNat := (h.mono (.refl _) (subperm_below G b ds)).isNat_dist.add (h.ins b (mem_values_last G b ds))
  le := by
    refine le_trans ?_ h.total
    have hle := c.dist_le_total F (G ++ ds)
    simp only [CostModel.insAll_append, CostModel.insAll_cons, CostModel.insAll_nil] at hle ⊢
    linarith

theorem Fits.before (h : Fits c (F ++ [.node a cs]) (G ++ [.node b ds])) : Fits c F G := by
  refine h.mono ?_ ?_
  · rw [forestValues_append]
    exact (List.sublist_append_left _ _).subperm
  · rw [forestValues_append]
    exact (List.sublist_append_left _ _).subperm

theorem Fits.below (h : Fits c (F ++ [.node a cs]) (G ++ [.node b ds])) : Fits c cs ds := by
  refine h.mono (.trans ?_ (subperm_below F a cs)) (.trans ?_ (subperm_below G b ds))
  · rw [forestValues_append]
    exact (List.sublist_append_right _ _).subperm
  · rw [forestValues_append]
    exact (List.sublist_append_right _ _).subperm

theorem Fits.exact_ren (h : Fits c (F ++ [.node a cs]) (G ++ [.node b ds])) :
    Exact (c.dist F G + c.dist cs ds + c.ren a b) where
  isNat := (h.before.isNat_dist.add h.below.isNat_dist).add
    (h.ren a (mem_values_last F a cs) b (mem_values_last G b ds))
  le := by
    refine le_trans ?_ h.total
    have hbefore := c.dist_le_total F G
    have hbelow := c.dist_le_total cs ds
    have hren := h.ren_le a (mem_values_last F a cs) b (mem_values_last G b ds)
    simp only [CostModel.delAll_append, CostModel.delAll_cons, CostModel.delAll_nil,
      CostModel.insAll_append, CostModel.insAll_cons, CostModel.insAll_nil]
    linarith

/-- The parts of an exact sum are exact. -/
theorem Exact.of_add {x y : ℚ} (h : Exact (x + y)) (hx : IsNat x) (hy : IsNat y) :
    Exact x ∧ Exact y :=
  ⟨⟨hx, by linarith [h.le, hy.nonneg]⟩, ⟨hy, by linarith [h.le, hx.nonneg]⟩⟩

theorem min_three (da db dc : ℚ) :
    (if da ≥ db then if db ≥ dc then dc else db else if da ≥ dc then dc else da) =
      min da (min db dc) := by
  split_ifs with h1 h2 h3
  · rw [min_eq_right h2, min_eq_right (h2.trans h1)]
  · rw [min_eq_left (not_le.mp h2).le, min_eq_right h1]
  · rw [min_eq_right ((h3.trans (not_le.mp h1).le)), min_eq_right h3]
  · rw [min_eq_left (le_min (not_le.mp h1).le (not_le.mp h3).le)]

theorem Fits.rounded (h : Fits c (F ++ [.node a cs]) (G ++ [.node b ds])) {u : ℚ}
    (hu : u = c.ren a b ∨ u = toSingle (c.ren a b)) :
    u = c.ren a b ∧ toDouble (c.dist F G + c.dist cs ds) = c.dist F G + c.dist cs ds := by
  obtain ⟨hdist, hren⟩ := h.exact_ren.of_add (h.before.isNat_dist.add h.below.isNat_dist)
    (h.ren a (mem_values_last F a cs) b (mem_values_last G b ds))
  refine ⟨?_, hdist.double⟩
  rcases hu with rfl | rfl
  · rfl
  · exact hren.single

/-- The three sums of a turn are exact, and the least of them is the distance. -/
theorem Fits.min_eq (h : Fits c (F ++ [.node a cs]) (G ++ [.node b ds])) {u : ℚ}
    (hu : u = c.ren a b ∨ u = toSingle (c.ren a b)) :
    min (toSingle (toDouble (c.dist (F ++ cs) (G ++ [.node b ds]) + c.del a)))
      (min (toSingle (toDouble (c.dist (F ++ [.node a cs]) (G ++ ds) + c.ins b)))
        (toSingle (toDouble (toDouble (c.dist F G + c.dist cs ds) + u)))) =
      c.dist (F ++ [.node a cs]) (G ++ [.node b ds]) := by
  obtain ⟨rfl, hdist⟩ := h.rounded hu
  rw [hdist, h.exact_del.double, h.exact_del.single, h.exact_ins.double, h.exact_ins.single,
    h.exact_ren.double, h.exact_ren.single]
  exact (c.dist_concat_concat F G a b cs ds).symm

theorem ordered_false (c : CostModel LabelId ℚ) : ordered c false = c := rfl

theorem ordered_true (c : CostModel LabelId ℚ) : ordered c true = c.flip := rfl

theorem Fits.flip {F G : List (Rose LabelId)} (h : Fits c F G) : Fits c.flip G F where
  del := h.ins
  ins := h.del
  ren b hb a ha := h.ren a ha b hb
  ren_le b hb a ha := by
    rw [add_comm]
    exact h.ren_le a ha b hb
  total := by
    rw [add_comm]
    exact h.total

/-- Two trees whose weights are not negative and small in sum. -/
structure Light (s t : Rose LabelId) : Prop where
  fst : ∀ a ∈ s.values, 0 ≤ a.2
  snd : ∀ b ∈ t.values, 0 ≤ b.2
  total : (s.values.map Prod.snd).sum + (t.values.map Prod.snd).sum ≤ 2 ^ 24

theorem isNat_intCast {z : ℤ} (h : 0 ≤ z) : IsNat (z : ℚ) := by
  obtain ⟨k, rfl⟩ := Int.eq_ofNat_of_zero_le h
  exact ⟨k, Int.cast_natCast k⟩

theorem delAll_unit (t : Rose LabelId) :
    UnitCostModelLD.delAll [t] = ((t.values.map Prod.snd).sum : ℤ) := by
  simp only [CostModel.delAll, UnitCostModelLD, forestValues, List.append_nil]
  induction t.values with
  | nil => rfl
  | cons a as ih => simp [ih, del]

theorem insAll_unit (t : Rose LabelId) :
    UnitCostModelLD.insAll [t] = ((t.values.map Prod.snd).sum : ℤ) := delAll_unit t

theorem le_sum_of_mem {as : List LabelId} (h : ∀ a ∈ as, 0 ≤ a.2) (ha : a ∈ as) :
    a.2 ≤ (as.map Prod.snd).sum := by
  refine List.single_le_sum (fun z hz => ?_) a.2 (List.mem_map_of_mem ha)
  obtain ⟨b, hb, rfl⟩ := List.mem_map.mp hz
  exact h b hb

/-- For such trees no sum of weights overflows, and all sums are floats. -/
theorem Light.fits {s t : Rose LabelId} (h : Light s t) : Fits UnitCostModelLD [s] [t] := by
  have hren : ∀ a ∈ s.values, ∀ b ∈ t.values, UnitCostModelLD.ren a b = 0 ∨
      UnitCostModelLD.ren a b = UnitCostModelLD.del a + UnitCostModelLD.ins b := by
    intro a ha b hb
    have hle := add_le_add (le_sum_of_mem h.fst ha) (le_sum_of_mem h.snd hb)
    have htotal := h.total
    have hfst := h.fst a ha
    have hsnd := h.snd b hb
    by_cases hab : a.1 = b.1
    · exact .inl (by simp [UnitCostModelLD, ren, hab])
    · refine .inr ?_
      have hadd : int_add a.2 b.2 = some (a.2 + b.2) := if_pos (by omega)
      simp [UnitCostModelLD, ren, hab, hadd, del, ins]
  have hdel : ∀ a ∈ s.values, IsNat (UnitCostModelLD.del a) := fun a ha => by
    simpa [UnitCostModelLD, del] using isNat_intCast (h.fst a ha)
  have hins : ∀ b ∈ t.values, IsNat (UnitCostModelLD.ins b) := fun b hb => by
    simpa [UnitCostModelLD, ins] using isNat_intCast (h.snd b hb)
  refine ⟨?_, ?_, ?_, ?_, ?_⟩
  · simpa [forestValues] using hdel
  · simpa [forestValues] using hins
  · simp only [forestValues, List.append_nil]
    intro a ha b hb
    rcases hren a ha b hb with heq | heq
    · rw [heq]
      exact isNat_zero
    · rw [heq]
      exact (hdel a ha).add (hins b hb)
  · simp only [forestValues, List.append_nil]
    intro a ha b hb
    rcases hren a ha b hb with heq | heq
    · rw [heq]
      exact add_nonneg (hdel a ha).nonneg (hins b hb).nonneg
    · exact heq.le
  · rw [delAll_unit, insAll_unit]
    exact_mod_cast h.total

theorem Light.fits_ordered {s t : Rose LabelId} (h : Light s t) (treesSwapped : Bool) :
    Fits (ordered UnitCostModelLD treesSwapped) [s] [t] := by
  cases treesSwapped with
  | false => exact h.fits
  | true =>
    have hswap : Light t s := ⟨h.snd, h.fst, by rw [add_comm]; exact h.total⟩
    exact hswap.fits.flip

end Fits

/-! ## One table -/

theorem update_update (f : ℕ → ℕ → ℚ) (i j i' j' : ℕ) (d : ℚ) :
    Function.update f i (Function.update (f i) j d) i' j' =
      if i' = i ∧ j' = j then d else f i' j' := by
  simp only [Function.update_apply]
  split_ifs <;> simp_all

namespace Tables

variable (s : Tables) (treesSwapped : Bool) (x y i1 j1 : ℕ) (d : ℚ)

@[simp] theorem forestdist_setDist (i' j' : ℕ) : (s.setDist i1 j1 d).forestdist i' j' =
    if i' = i1 ∧ j' = j1 then d else s.forestdist i' j' :=
  update_update s.forestdist i1 j1 i' j' d

@[simp] theorem delta_setDist (x' y' : ℕ) :
    (s.setDist i1 j1 d).delta treesSwapped x' y' = s.delta treesSwapped x' y' := rfl

@[simp] theorem counter_setDist :
    (s.setDist i1 j1 d).subproblem_counter_ = s.subproblem_counter_ := rfl

@[simp] theorem forestdist_setDelta :
    (s.setDelta treesSwapped x y d).forestdist = s.forestdist := by
  cases treesSwapped <;> rfl

@[simp] theorem delta_setDelta (x' y' : ℕ) :
    (s.setDelta treesSwapped x y d).delta treesSwapped x' y' =
      if x' = x ∧ y' = y then d else s.delta treesSwapped x' y' := by
  cases treesSwapped with
  | false => exact update_update s.delta_ x y x' y' d
  | true =>
    simp only [and_comm (a := x' = x)]
    exact update_update s.delta_ y x y' x' d

@[simp] theorem counter_setDelta :
    (s.setDelta treesSwapped x y d).subproblem_counter_ = s.subproblem_counter_ := by
  cases treesSwapped <;> rfl

@[simp] theorem forestdist_count : s.count.forestdist = s.forestdist := rfl

@[simp] theorem delta_count (x' y' : ℕ) :
    s.count.delta treesSwapped x' y' = s.delta treesSwapped x' y' := rfl

@[simp] theorem counter_count : s.count.subproblem_counter_ = s.subproblem_counter_ + 1 := rfl

end Tables

/-- The labels and first leaves of a postorder. -/
def Numbering.order (t : Numbering) : PostOrder LabelId := ⟨t.post_to_label_id, t.post_to_leaf⟩

theorem exists_last {t : Numbering} {l k : ℕ} {F : List (Rose LabelId)}
    (h : Spans t.order l (l + (k + 1)) F) :
    ∃ F' cs, Spans t.order l (t.post_to_leaf (l + k)) F' ∧
      Spans t.order (t.post_to_leaf (l + k)) (l + k) cs ∧
      F = F' ++ [.node (t.post_to_label_id (l + k)) cs] :=
  h.exists_snoc (Nat.le_add_right l k)

section Table

variable (c : CostModel LabelId ℚ) (t1 t2 : Numbering) (l₁ l₂ : ℕ) (treesSwapped : Bool)

/-- An entry of the table is the distance of the first `i1` nodes and the first `j1` nodes. -/
def Holds (s : Tables) (i1 j1 : ℕ) : Prop :=
  ∀ F G, Spans t1.order l₁ (l₁ + i1) F → Spans t2.order l₂ (l₂ + j1) G →
    s.forestdist i1 j1 = (ordered c treesSwapped).dist F G

/-- An entry of `delta_` is the distance of the trees below two nodes. -/
def BelowHolds (s : Tables) (ni nj : ℕ) : Prop :=
  ∀ cs ds, Spans t1.order (t1.post_to_leaf ni) ni cs → Spans t2.order (t2.post_to_leaf nj) nj ds →
    s.delta treesSwapped (t1.post_to_prel ni) (t2.post_to_prel nj) = (ordered c treesSwapped).dist cs ds

/-- Two nodes are on the paths to the first leaves of the two trees. -/
def OnPaths (ni nj : ℕ) : Prop := t1.post_to_leaf ni = l₁ ∧ t2.post_to_leaf nj = l₂

end Table

section Fill

variable {u_type : ℚ → ℚ} {c : CostModel LabelId ℚ} {t1 t2 : Numbering} {i j i1 j1 : ℕ}
  {treesSwapped : Bool} {F G : List (Rose LabelId)} {s : Tables}

/-- What a turn of the loops does when the numbers that it reads are right. -/
structure CellFilled (c : CostModel LabelId ℚ) (t1 t2 : Numbering) (l₁ l₂ : ℕ) (treesSwapped : Bool)
    (i1 j1 : ℕ) (s s' : Tables) : Prop where
  holds : Holds c t1 t2 l₁ l₂ treesSwapped s' (i1 + 1) (j1 + 1)
  below : BelowHolds c t1 t2 treesSwapped s' (l₁ + i1) (l₂ + j1)
  forestdist : ∀ i' j', ¬ (i' = i1 + 1 ∧ j' = j1 + 1) → s'.forestdist i' j' = s.forestdist i' j'
  delta : ∀ x y, ¬ (OnPaths t1 t2 l₁ l₂ (l₁ + i1) (l₂ + j1) ∧ x = t1.post_to_prel (l₁ + i1) ∧
    y = t2.post_to_prel (l₂ + j1)) → s'.delta treesSwapped x y = s.delta treesSwapped x y
  counter : s'.subproblem_counter_ = s.subproblem_counter_ + 1

theorem fill_cell_spec {l₁ l₂ : ℕ} (hu : u_type = id ∨ u_type = toSingle)
    (hl₁ : t1.post_to_leaf i = l₁) (hl₂ : t2.post_to_leaf j = l₂)
    (hF : Spans t1.order l₁ (l₁ + (i1 + 1)) F) (hG : Spans t2.order l₂ (l₂ + (j1 + 1)) G)
    (hfits : Fits (ordered c treesSwapped) F G)
    (hdel : Holds c t1 t2 l₁ l₂ treesSwapped s i1 (j1 + 1))
    (hins : Holds c t1 t2 l₁ l₂ treesSwapped s (i1 + 1) j1)
    (hboth : Holds c t1 t2 l₁ l₂ treesSwapped s i1 j1)
    (hbefore : Holds c t1 t2 l₁ l₂ treesSwapped s (t1.post_to_leaf (l₁ + i1) - l₁)
      (t2.post_to_leaf (l₂ + j1) - l₂))
    (hbelow : ¬ OnPaths t1 t2 l₁ l₂ (l₁ + i1) (l₂ + j1) →
      BelowHolds c t1 t2 treesSwapped s (l₁ + i1) (l₂ + j1)) :
    CellFilled c t1 t2 l₁ l₂ treesSwapped i1 j1 s
      (fill_cell u_type c t1 t2 i j treesSwapped (i1 + 1) s (j1 + 1)) := by
  obtain ⟨F, cs, hF', hcs, rfl⟩ := exists_last hF
  obtain ⟨G, ds, hG', hds, rfl⟩ := exists_last hG
  have hdF : s.forestdist (t1.post_to_leaf (l₁ + i1) - l₁) (t2.post_to_leaf (l₂ + j1) - l₂) =
      (ordered c treesSwapped).dist F G := by
    refine hbefore _ _ ?_ ?_
    · rw [Nat.add_sub_cancel' hF'.le]
      exact hF'
    · rw [Nat.add_sub_cancel' hG'.le]
      exact hG'
  have hmin := hfits.min_eq (hu.imp (congrFun · _) (congrFun · _))
  rw [← hdel _ _ (hF'.append hcs) hG, ← hins _ _ hF (hG'.append hds), ← min_three] at hmin
  by_cases hpath : t1.post_to_leaf (l₁ + i1) = l₁ ∧ t2.post_to_leaf (l₂ + j1) = l₂
  · rw [hpath.1] at hF'
    rw [hpath.2] at hG'
    obtain rfl := hF'.eq_nil
    obtain rfl := hG'.eq_nil
    have hdd := hboth cs ds (by rwa [hpath.1] at hcs) (by rwa [hpath.2] at hds)
    rw [(hfits.rounded (.inl rfl)).2, CostModel.dist_nil_right, CostModel.delAll_nil, zero_add,
      ← hdd] at hmin
    have hcell : fill_cell u_type c t1 t2 i j treesSwapped (i1 + 1) s (j1 + 1) =
        ((s.setDelta treesSwapped (t1.post_to_prel (l₁ + i1)) (t2.post_to_prel (l₂ + j1))
          (s.forestdist i1 j1)).count).setDist (i1 + 1) (j1 + 1) ((ordered c treesSwapped).dist
            ([] ++ [.node (t1.post_to_label_id (l₁ + i1)) cs])
            ([] ++ [.node (t2.post_to_label_id (l₂ + j1)) ds])) := by
      rw [← hmin]
      unfold fill_cell
      simp only [hl₁, hl₂, Nat.add_sub_cancel, ← Nat.add_assoc, if_pos hpath]
    rw [hcell]
    refine ⟨fun F G hF₀ hG₀ => ?_, fun cs' ds' hcs' hds' => ?_, fun i' j' hne => ?_,
      fun x y hne => ?_, by simp⟩
    · rw [hF₀.unique hF, hG₀.unique hG]
      simp
    · rw [hcs'.unique hcs, hds'.unique hds, ← hdd]
      simp
    · simp [hne]
    · have hne' : ¬ (x = t1.post_to_prel (l₁ + i1) ∧ y = t2.post_to_prel (l₂ + j1)) :=
        fun h => hne ⟨hpath, h⟩
      simp [hne']
  · have hbelow' := hbelow hpath
    rw [← hbelow' _ _ hcs hds, ← hdF] at hmin
    have hcell : fill_cell u_type c t1 t2 i j treesSwapped (i1 + 1) s (j1 + 1) =
        s.count.setDist (i1 + 1) (j1 + 1) ((ordered c treesSwapped).dist
          (F ++ [.node (t1.post_to_label_id (l₁ + i1)) cs])
          (G ++ [.node (t2.post_to_label_id (l₂ + j1)) ds])) := by
      rw [← hmin]
      unfold fill_cell
      simp only [hl₁, hl₂, Nat.add_sub_cancel, ← Nat.add_assoc, if_neg hpath]
    rw [hcell]
    refine ⟨fun F' G' hF₀ hG₀ => ?_, fun cs' ds' hcs' hds' => ?_, fun i' j' hne => ?_,
      fun x y _ => rfl, rfl⟩
    · rw [hF₀.unique hF, hG₀.unique hG]
      simp
    · exact hbelow' cs' ds' hcs' hds'
    · simp [hne]

/-- A loop from one on keeps what its turns keep. -/
theorem foldl_range'_induction {σ : Type} {f : σ → ℕ → σ} {P : ℕ → σ → Prop} {n : ℕ} {s : σ}
    (zero : P 0 s) (succ : ∀ k < n, ∀ s, P k s → P (k + 1) (f s (k + 1))) :
    P n ((List.range' 1 n).foldl f s) := by
  induction n with
  | zero => exact zero
  | succ n ih =>
    rw [List.range'_1_concat, List.foldl_append, Nat.add_comm 1 n]
    exact succ n (Nat.lt_succ_self n) _ (ih fun k hk => succ k (Nat.lt_succ_of_lt hk))

/-- The nodes of a table: a range of each postorder, with trees of small weight. -/
structure Ranges (c : CostModel LabelId ℚ) (t1 t2 : Numbering) (treesSwapped : Bool) (l₁ n l₂ m : ℕ)
    (F G : List (Rose LabelId)) : Prop where
  fst : Spans t1.order l₁ (l₁ + n) F
  snd : Spans t2.order l₂ (l₂ + m) G
  fits : Fits (ordered c treesSwapped) F G
  fst_inj : ∀ i < n, ∀ i' < n, t1.post_to_prel (l₁ + i) = t1.post_to_prel (l₁ + i') → i = i'
  snd_inj : ∀ j < m, ∀ j' < m, t2.post_to_prel (l₂ + j) = t2.post_to_prel (l₂ + j') → j = j'

/-- The tables when `r` rows and `k` more turns are done. -/
structure Filled (c : CostModel LabelId ℚ) (t1 t2 : Numbering) (treesSwapped : Bool) (l₁ n l₂ m : ℕ)
    (s₀ : Tables) (r k : ℕ) (s : Tables) : Prop where
  holds : ∀ i ≤ n, ∀ j ≤ m, (i ≤ r ∨ j = 0 ∨ i = r + 1 ∧ j ≤ k) →
    Holds c t1 t2 l₁ l₂ treesSwapped s i j
  below : ∀ i < n, ∀ j < m, (i < r ∨ i = r ∧ j < k ∨ ¬ OnPaths t1 t2 l₁ l₂ (l₁ + i) (l₂ + j)) →
    BelowHolds c t1 t2 treesSwapped s (l₁ + i) (l₂ + j)
  delta : ∀ x y, (∀ i < n, ∀ j < m, OnPaths t1 t2 l₁ l₂ (l₁ + i) (l₂ + j) →
    ¬ (x = t1.post_to_prel (l₁ + i) ∧ y = t2.post_to_prel (l₂ + j))) →
      s.delta treesSwapped x y = s₀.delta treesSwapped x y
  counter : s.subproblem_counter_ = s₀.subproblem_counter_ + (r * m + k)

variable {l₁ n l₂ m r k : ℕ} {s₀ : Tables}

theorem Ranges.exists_shorter (h : Ranges c t1 t2 treesSwapped l₁ n l₂ m F G) (hi : i1 ≤ n)
    (hj : j1 ≤ m) : ∃ F' G', Spans t1.order l₁ (l₁ + i1) F' ∧ Spans t2.order l₂ (l₂ + j1) G' ∧
      Fits (ordered c treesSwapped) F' G' := by
  obtain ⟨F', hF'⟩ := h.fst.exists_of_le (m := l₁ + i1) (by omega) (by omega)
  obtain ⟨G', hG'⟩ := h.snd.exists_of_le (m := l₂ + j1) (by omega) (by omega)
  exact ⟨F', G', hF', hG', h.fits.mono (h.fst.subperm_values hF' (by omega))
    (h.snd.subperm_values hG' (by omega))⟩

theorem Filled.cell (hranges : Ranges c t1 t2 treesSwapped l₁ n l₂ m F G)
    (hu : u_type = id ∨ u_type = toSingle)
    (hl₁ : t1.post_to_leaf i = l₁) (hl₂ : t2.post_to_leaf j = l₂) (hr : r < n) (hk : k < m)
    (h : Filled c t1 t2 treesSwapped l₁ n l₂ m s₀ r k s) :
    Filled c t1 t2 treesSwapped l₁ n l₂ m s₀ r (k + 1)
      (fill_cell u_type c t1 t2 i j treesSwapped (r + 1) s (k + 1)) := by
  obtain ⟨F', G', hF', hG', hfits⟩ := hranges.exists_shorter hr hk
  obtain ⟨_, _, hfst, hfst', -⟩ := exists_last hF'
  obtain ⟨_, _, hsnd, hsnd', -⟩ := exists_last hG'
  have hle₁ := hfst'.le
  have hle₂ := hsnd'.le
  have hcell : CellFilled c t1 t2 l₁ l₂ treesSwapped r k s _ :=
    fill_cell_spec (i := i) (j := j) hu hl₁ hl₂ hF' hG' hfits
      (h.holds r (by omega) (k + 1) (by omega) (by omega))
      (h.holds (r + 1) (by omega) k (by omega) (by omega))
      (h.holds r (by omega) k (by omega) (by omega))
      (h.holds _ (by omega) _ (by omega) (by omega))
      fun hpath => h.below r hr k hk (.inr (.inr hpath))
  refine ⟨fun i' hi' j' hj' hdone => ?_, fun i' hi' j' hj' hdone => ?_, fun x y hne => ?_, ?_⟩
  · by_cases hnew : i' = r + 1 ∧ j' = k + 1
    · obtain ⟨rfl, rfl⟩ := hnew
      exact hcell.holds
    · intro F₀ G₀ hF₀ hG₀
      rw [hcell.forestdist i' j' hnew]
      exact h.holds i' hi' j' hj' (by omega) F₀ G₀ hF₀ hG₀
  · by_cases hnew : i' = r ∧ j' = k
    · obtain ⟨rfl, rfl⟩ := hnew
      exact hcell.below
    · intro cs ds hcs hds
      rw [hcell.delta]
      · exact h.below i' hi' j' hj' (by grind) cs ds hcs hds
      · rintro ⟨-, hx, hy⟩
        exact hnew ⟨hranges.fst_inj i' hi' r hr hx, hranges.snd_inj j' hj' k hk hy⟩
  · rw [hcell.delta x y fun hpath => hne r hr k hk hpath.1 hpath.2]
    exact h.delta x y hne
  · rw [hcell.counter, h.counter, Nat.add_assoc, Nat.add_assoc]

theorem Filled.row (hranges : Ranges c t1 t2 treesSwapped l₁ n l₂ m F G)
    (hu : u_type = id ∨ u_type = toSingle)
    (hl₁ : t1.post_to_leaf i = l₁) (hl₂ : t2.post_to_leaf j = l₂) (hr : r < n)
    (h : Filled c t1 t2 treesSwapped l₁ n l₂ m s₀ r 0 s) :
    Filled c t1 t2 treesSwapped l₁ n l₂ m s₀ (r + 1) 0
      (fill_row u_type c t1 t2 i j treesSwapped m s (r + 1)) := by
  have hrow : Filled c t1 t2 treesSwapped l₁ n l₂ m s₀ r m
      (fill_row u_type c t1 t2 i j treesSwapped m s (r + 1)) :=
    foldl_range'_induction h fun k hk s hs => hs.cell hranges hu hl₁ hl₂ hr hk
  refine ⟨fun i' hi' j' hj' hdone => hrow.holds i' hi' j' hj' (by omega),
    fun i' hi' j' hj' hdone => hrow.below i' hi' j' hj' (by grind), hrow.delta, ?_⟩
  rw [hrow.counter, Nat.succ_mul, Nat.add_zero]

/-- A loop that only writes to the table leaves the rest as it was. -/
structure SameRest (treesSwapped : Bool) (s s' : Tables) : Prop where
  delta : ∀ x y, s'.delta treesSwapped x y = s.delta treesSwapped x y
  counter : s'.subproblem_counter_ = s.subproblem_counter_

theorem SameRest.setDist {s' : Tables} (h : SameRest treesSwapped s s') (i1 j1 : ℕ) (d : ℚ) :
    SameRest treesSwapped s (s'.setDist i1 j1 d) := ⟨h.delta, h.counter⟩

theorem holds_column (hranges : Ranges c t1 t2 treesSwapped l₁ n l₂ m F G) (hk : k < n)
    (h : Holds c t1 t2 l₁ l₂ treesSwapped s k 0) :
    Holds c t1 t2 l₁ l₂ treesSwapped (s.setDist (k + 1) 0 (toDouble (s.forestdist k 0 +
      (ordered c treesSwapped).del (t1.post_to_label_id (l₁ + k))))) (k + 1) 0 := by
  intro F' G' hF' hG'
  obtain ⟨F₀, G₀, hF₀, hG₀, hfits⟩ := hranges.exists_shorter hk (Nat.zero_le m)
  rw [hF₀.unique hF', hG₀.unique hG'] at hfits
  obtain rfl := hG'.eq_nil
  obtain ⟨F'', cs, hbefore, hcs, rfl⟩ := exists_last hF'
  rw [h _ _ (hbefore.append hcs) hG', hfits.exact_del.double, CostModel.dist_concat_nil]
  simp

theorem holds_row (hranges : Ranges c t1 t2 treesSwapped l₁ n l₂ m F G) (hk : k < m)
    (h : Holds c t1 t2 l₁ l₂ treesSwapped s 0 k) :
    Holds c t1 t2 l₁ l₂ treesSwapped (s.setDist 0 (k + 1) (toDouble (s.forestdist 0 k +
      (ordered c treesSwapped).ins (t2.post_to_label_id (l₂ + k))))) 0 (k + 1) := by
  intro F' G' hF' hG'
  obtain ⟨F₀, G₀, hF₀, hG₀, hfits⟩ := hranges.exists_shorter (Nat.zero_le n) hk
  rw [hF₀.unique hF', hG₀.unique hG'] at hfits
  obtain rfl := hF'.eq_nil
  obtain ⟨G'', ds, hbefore, hds, rfl⟩ := exists_last hG'
  rw [h _ _ hF' (hbefore.append hds), hfits.exact_ins.double, CostModel.dist_nil_concat]
  simp

/-- A write to another entry of the table does not matter. -/
theorem Holds.setDist (h : Holds c t1 t2 l₁ l₂ treesSwapped s i j) {d : ℚ}
    (hne : ¬ (i = i1 ∧ j = j1)) : Holds c t1 t2 l₁ l₂ treesSwapped (s.setDist i1 j1 d) i j := by
  intro F G hF hG
  rw [Tables.forestdist_setDist, if_neg hne]
  exact h F G hF hG

/-- The first column has the costs of deletes and the first row the costs of inserts. -/
theorem Filled.borders (hranges : Ranges c t1 t2 treesSwapped l₁ n l₂ m F G)
    (hl₁ : t1.post_to_leaf i = l₁) (hl₂ : t2.post_to_leaf j = l₂)
    (hbelow : ∀ i < n, ∀ j < m, ¬ OnPaths t1 t2 l₁ l₂ (l₁ + i) (l₂ + j) →
      BelowHolds c t1 t2 treesSwapped s (l₁ + i) (l₂ + j)) :
    Filled c t1 t2 treesSwapped l₁ n l₂ m s 0 0 (fill_borders c t1 t2 i j treesSwapped n m s) := by
  subst hl₁ hl₂
  set l₁ := t1.post_to_leaf i
  set l₂ := t2.post_to_leaf j
  have hcorner : Holds c t1 t2 l₁ l₂ treesSwapped (s.setDist 0 0 0) 0 0 := by
    intro F' G' hF' hG'
    rw [hF'.eq_nil, hG'.eq_nil, CostModel.dist_nil_right]
    simp
  have hcolumn := foldl_range'_induction (n := n)
    (P := fun k s' => (∀ i ≤ k, Holds c t1 t2 l₁ l₂ treesSwapped s' i 0) ∧ SameRest treesSwapped s s')
    (f := fun s i1 => s.setDist i1 0 (toDouble (s.forestdist (i1 - 1) 0 +
      (ordered c treesSwapped).del (t1.post_to_label_id (l₁ + i1 - 1)))))
    (s := s.setDist 0 0 0) ⟨fun i hi => by rwa [Nat.le_zero.mp hi], ⟨fun _ _ => rfl, rfl⟩⟩
    fun k hk s' hs' => by
      refine ⟨fun i hi => ?_, hs'.2.setDist _ _ _⟩
      rcases Nat.eq_or_lt_of_le hi with rfl | hlt
      · exact holds_column hranges hk (hs'.1 k le_rfl)
      · exact (hs'.1 i (by omega)).setDist (by omega)
  obtain ⟨hfirst, hcolumn', hsame⟩ := foldl_range'_induction (n := m)
    (P := fun k s' => (∀ j ≤ k, Holds c t1 t2 l₁ l₂ treesSwapped s' 0 j) ∧
      (∀ i ≤ n, Holds c t1 t2 l₁ l₂ treesSwapped s' i 0) ∧ SameRest treesSwapped s s')
    (f := fun s j1 => s.setDist 0 j1 (toDouble (s.forestdist 0 (j1 - 1) +
      (ordered c treesSwapped).ins (t2.post_to_label_id (l₂ + j1 - 1)))))
    ⟨fun j hj => by rw [Nat.le_zero.mp hj]; exact hcolumn.1 0 (Nat.zero_le _), hcolumn⟩
    fun k hk s' hs' => by
      refine ⟨fun j hj => ?_, fun i hi => (hs'.2.1 i hi).setDist (by omega), hs'.2.2.setDist _ _ _⟩
      rcases Nat.eq_or_lt_of_le hj with rfl | hlt
      · exact holds_row hranges hk (hs'.1 k le_rfl)
      · exact (hs'.1 j (by omega)).setDist (by omega)
  replace hsame : SameRest treesSwapped s (fill_borders c t1 t2 i j treesSwapped n m s) := hsame
  refine ⟨fun i' hi' j' hj' hdone => ?_, fun i' hi' j' hj' hdone => ?_, fun x y _ => ?_, ?_⟩
  · by_cases hzero : j' = 0
    · rw [hzero]
      exact hcolumn' i' hi'
    · rw [show i' = 0 by omega]
      exact hfirst j' hj'
  · intro cs ds hcs hds
    rw [hsame.delta]
    exact hbelow i' hi' j' hj' (by grind) cs ds hcs hds
  · exact hsame.delta x y
  · rw [hsame.counter]
    simp

/-- The whole table. -/
theorem fill_table_spec (hranges : Ranges c t1 t2 treesSwapped l₁ n l₂ m F G)
    (hu : u_type = id ∨ u_type = toSingle)
    (hl₁ : t1.post_to_leaf i = l₁) (hl₂ : t2.post_to_leaf j = l₂) (hn : i - l₁ + 1 = n)
    (hm : j - l₂ + 1 = m)
    (hbelow : ∀ i < n, ∀ j < m, ¬ OnPaths t1 t2 l₁ l₂ (l₁ + i) (l₂ + j) →
      BelowHolds c t1 t2 treesSwapped s (l₁ + i) (l₂ + j)) :
    Filled c t1 t2 treesSwapped l₁ n l₂ m s n 0 (fill_table u_type c t1 t2 i j treesSwapped s) := by
  have hborders := Filled.borders hranges hl₁ hl₂ hbelow
  have heq : fill_table u_type c t1 t2 i j treesSwapped s =
      (List.range' 1 n).foldl (fill_row u_type c t1 t2 i j treesSwapped m)
        (fill_borders c t1 t2 i j treesSwapped n m s) := by
    unfold fill_table
    rw [hl₁, hl₂, hn, hm]
  rw [heq]
  exact foldl_range'_induction (P := fun k s' => Filled c t1 t2 treesSwapped l₁ n l₂ m s k 0 s')
    hborders fun k hk s' hs' => hs'.row hranges hu hl₁ hl₂ hk

end Fill

end ditto.apted
