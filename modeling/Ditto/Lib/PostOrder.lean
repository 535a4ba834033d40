-- Trees in arrays. The nodes have the numbers of a postorder, in which a node
-- comes right after the nodes below it, and the arrays have the value of a
-- node and the number of its first leaf. The nodes of a range of numbers are
-- then a list of trees, and its last node is the last root.
import Ditto.Lib.Forest

namespace Rose

variable {α : Type}

/-- The arrays, by the numbers of the nodes. -/
structure PostOrder (α : Type) where
  label : ℕ → α
  leaf : ℕ → ℕ

variable {A B : PostOrder α} {l m n i : ℕ} {F G cs ds : List (Rose α)}

/-- The nodes with the numbers from `l` up to `n` are these trees. -/
inductive Spans (A : PostOrder α) : ℕ → ℕ → List (Rose α) → Prop
  | nil (l : ℕ) : Spans A l l []
  | snoc {l i : ℕ} {F cs : List (Rose α)} (before : Spans A l (A.leaf i) F)
      (below : Spans A (A.leaf i) i cs) : Spans A l (i + 1) (F ++ [.node (A.label i) cs])

theorem Spans.le (h : Spans A l n F) : l ≤ n := by
  induction h with
  | nil => exact le_rfl
  | snoc _ _ ihbefore ihbelow => omega

theorem Spans.length_values (h : Spans A l n F) : (forestValues F).length = n - l := by
  induction h with
  | nil => simp [forestValues]
  | snoc hbefore hbelow ihbefore ihbelow =>
    have := hbefore.le
    have := hbelow.le
    simp only [forestValues_append, forestValues, values, List.length_append, List.length_cons,
      ihbefore, ihbelow, List.length_nil]
    omega

theorem Spans.append (hF : Spans A l m F) (hG : Spans A m n G) : Spans A l n (F ++ G) := by
  induction hG with
  | nil => simpa using hF
  | snoc _ hbelow ihbefore _ =>
    rw [← List.append_assoc]
    exact .snoc (ihbefore hF) hbelow

/-- The last node of a range is its last root. -/
theorem Spans.exists_snoc (h : Spans A l (i + 1) F) (hi : l ≤ i) :
    ∃ F' cs, Spans A l (A.leaf i) F' ∧ Spans A (A.leaf i) i cs ∧
      F = F' ++ [.node (A.label i) cs] := by
  generalize hn : i + 1 = n at h
  cases h with
  | nil => omega
  | snoc hbefore hbelow =>
    obtain rfl : i = _ := Nat.succ.inj hn
    exact ⟨_, _, hbefore, hbelow, rfl⟩

theorem Spans.eq_nil (h : Spans A l l F) : F = [] := by
  have hlen := h.length_values
  cases F with
  | nil => rfl
  | cons t ts =>
    obtain ⟨a, cs⟩ := t
    simp [forestValues, values] at hlen

/-- A range has one list of trees. -/
theorem Spans.unique (h : Spans A l n F) (h' : Spans A l n G) : F = G := by
  induction h generalizing G with
  | nil => exact h'.eq_nil.symm
  | snoc hbefore hbelow ihbefore ihbelow =>
    obtain ⟨F', cs, hbefore', hbelow', rfl⟩ :=
      h'.exists_snoc (hbefore.le.trans hbelow.le)
    rw [ihbefore hbefore', ihbelow hbelow']

/-- A range may end earlier. -/
theorem Spans.exists_of_le (h : Spans A l n F) (hlm : l ≤ m) (hmn : m ≤ n) :
    ∃ F', Spans A l m F' := by
  induction n generalizing F with
  | zero => exact ⟨F, by rwa [show m = 0 by omega]⟩
  | succ n ih =>
    rcases Nat.eq_or_lt_of_le hmn with rfl | hlt
    · exact ⟨F, h⟩
    · obtain ⟨F', cs, hbefore, hbelow, -⟩ := h.exists_snoc (by omega)
      exact ih (hbefore.append hbelow) (by omega)

/-- The values of a range are the labels of its numbers. -/
theorem Spans.perm_values (h : Spans A l n F) :
    (forestValues F).Perm ((List.range' l (n - l)).map A.label) := by
  induction h with
  | nil => simp [forestValues]
  | @snoc l i F cs hbefore hbelow ihbefore ihbelow =>
    have hle := hbefore.le
    have hle' := hbelow.le
    have hrange : List.range' l (i + 1 - l) =
        List.range' l (A.leaf i - l) ++ (List.range' (A.leaf i) (i - A.leaf i) ++ [i]) := by
      rw [show i + 1 - l = A.leaf i - l + (i - A.leaf i + 1) by omega, ← List.range'_append_1,
        show l + (A.leaf i - l) = A.leaf i by omega, List.range'_1_concat,
        show A.leaf i + (i - A.leaf i) = i by omega]
    rw [hrange, forestValues_append, List.map_append, List.map_append]
    refine ihbefore.append ?_
    simp only [forestValues, values, List.append_nil, List.map_cons, List.map_nil]
    exact (ihbelow.cons _).trans (List.perm_append_singleton _ _).symm

/-- A shorter range has some of the values. -/
theorem Spans.subperm_values (h : Spans A l n F) (h' : Spans A l m G) (hmn : m ≤ n) :
    (forestValues G).Subperm (forestValues F) := by
  have hsub : (List.range' l (m - l)).Sublist (List.range' l (n - l)) :=
    List.range'_sublist_right.mpr (by omega)
  exact h'.perm_values.subperm.trans ((hsub.map A.label).subperm.trans h.perm_values.symm.subperm)

/-! ## The numbers of the nodes -/

/-- The number of nodes of a tree. -/
def size (t : Rose α) : ℕ := t.values.length

/-- The number of nodes of a list of trees. -/
def forestSize (ts : List (Rose α)) : ℕ := (forestValues ts).length

@[simp] theorem size_node (a : α) (cs : List (Rose α)) : (node a cs).size = forestSize cs + 1 := rfl

@[simp] theorem forestSize_nil : forestSize ([] : List (Rose α)) = 0 := rfl

@[simp] theorem forestSize_cons (t : Rose α) (ts : List (Rose α)) :
    forestSize (t :: ts) = t.size + forestSize ts := List.length_append

theorem size_pos (t : Rose α) : 0 < t.size := by
  obtain ⟨a, cs⟩ := t
  exact Nat.succ_pos _

/-- The value of the root. -/
def value : Rose α → α
  | .node a _ => a

/-- A node with its number in preorder, the number of its first leaf in postorder and the
preorder number of its parent. -/
structure Entry (α : Type) where
  parent : Option ℕ
  pre : ℕ
  first : ℕ
  tree : Rose α

/-- The number of the node in postorder. -/
def Entry.post (e : Entry α) : ℕ := e.first + e.tree.size - 1

mutual

/-- All nodes of a tree, from the numbers of its root on. -/
def entries : Rose α → Option ℕ → ℕ → ℕ → List (Entry α)
  | .node a cs, parent, p, q => ⟨parent, p, q, .node a cs⟩ :: forestEntries cs p (p + 1) q

/-- All nodes of the trees of a list of siblings. -/
def forestEntries : List (Rose α) → ℕ → ℕ → ℕ → List (Entry α)
  | [], _, _, _ => []
  | t :: ts, parent, p, q =>
    entries t (some parent) p q ++ forestEntries ts parent (p + t.size) (q + t.size)

end

theorem entries_eq_cons (t : Rose α) (parent : Option ℕ) (p q : ℕ) :
    entries t parent p q = ⟨parent, p, q, t⟩ :: forestEntries t.children p (p + 1) q := by
  obtain ⟨a, cs⟩ := t
  rfl

theorem mem_entries_root (t : Rose α) (parent : Option ℕ) (p q : ℕ) :
    ⟨parent, p, q, t⟩ ∈ entries t parent p q := by
  rw [entries_eq_cons]
  exact List.mem_cons_self

theorem mem_forestEntries_head (t : Rose α) (ts : List (Rose α)) (parent p q : ℕ) :
    ⟨some parent, p, q, t⟩ ∈ forestEntries (t :: ts) parent p q :=
  List.mem_append_left _ (mem_entries_root t (some parent) p q)

/-- The numbers of the nodes of a tree are next to each other. -/
theorem entries_bounds :
    (∀ (t : Rose α) (parent : Option ℕ) (p q : ℕ), ∀ e ∈ entries t parent p q,
      p ≤ e.pre ∧ e.pre + e.tree.size ≤ p + t.size ∧ q ≤ e.first ∧
        e.first + e.tree.size ≤ q + t.size) ∧
    ∀ (ts : List (Rose α)) (parent p q : ℕ), ∀ e ∈ forestEntries ts parent p q,
      p ≤ e.pre ∧ e.pre + e.tree.size ≤ p + forestSize ts ∧ q ≤ e.first ∧
        e.first + e.tree.size ≤ q + forestSize ts := by
  refine forest_induction (fun a cs ih parent p q e he => ?_) (fun parent p q e he => ?_)
    (fun t ts iht ihts parent p q e he => ?_)
  · rcases List.mem_cons.mp he with rfl | he
    · exact ⟨le_rfl, le_rfl, le_rfl, le_rfl⟩
    · have := ih p (p + 1) q e he
      rw [size_node]
      omega
  · cases he
  · rw [forestSize_cons]
    rcases List.mem_append.mp he with he | he
    · have := iht (some parent) p q e he
      omega
    · have := ihts parent (p + t.size) (q + t.size) e he
      omega

/-- Every number is the number of a node. -/
theorem exists_entry_pre :
    (∀ (t : Rose α) (parent : Option ℕ) (p q x : ℕ), p ≤ x → x < p + t.size →
      ∃ e ∈ entries t parent p q, e.pre = x) ∧
    ∀ (ts : List (Rose α)) (parent p q x : ℕ), p ≤ x → x < p + forestSize ts →
      ∃ e ∈ forestEntries ts parent p q, e.pre = x := by
  refine forest_induction (fun a cs ih parent p q x hx hlt => ?_)
    (fun parent p q x hx hlt => ?_) (fun t ts iht ihts parent p q x hx hlt => ?_)
  · rw [size_node] at hlt
    rcases Nat.eq_or_lt_of_le hx with rfl | hx
    · exact ⟨_, mem_entries_root _ _ _ _, rfl⟩
    · obtain ⟨e, he, rfl⟩ := ih p (p + 1) q x hx (by omega)
      exact ⟨e, List.mem_cons_of_mem _ he, rfl⟩
  · rw [forestSize_nil] at hlt
    omega
  · rw [forestSize_cons] at hlt
    by_cases hfirst : x < p + t.size
    · obtain ⟨e, he, rfl⟩ := iht (some parent) p q x hx hfirst
      exact ⟨e, List.mem_append_left _ he, rfl⟩
    · obtain ⟨e, he, rfl⟩ := ihts parent (p + t.size) (q + t.size) x (by omega) (by omega)
      exact ⟨e, List.mem_append_right _ he, rfl⟩

/-- The nodes below a node are nodes of the whole tree. -/
theorem entries_trans :
    (∀ (t : Rose α) (parent : Option ℕ) (p q : ℕ), ∀ e ∈ entries t parent p q,
      ∀ f ∈ entries e.tree e.parent e.pre e.first, f ∈ entries t parent p q) ∧
    ∀ (ts : List (Rose α)) (parent p q : ℕ), ∀ e ∈ forestEntries ts parent p q,
      ∀ f ∈ entries e.tree e.parent e.pre e.first, f ∈ forestEntries ts parent p q := by
  refine forest_induction (fun a cs ih parent p q e he f hf => ?_) (fun parent p q e he => ?_)
    (fun t ts iht ihts parent p q e he f hf => ?_)
  · rcases List.mem_cons.mp he with rfl | he
    · exact hf
    · exact List.mem_cons_of_mem _ (ih p (p + 1) q e he f hf)
  · cases he
  · rcases List.mem_append.mp he with he | he
    · exact List.mem_append_left _ (iht (some parent) p q e he f hf)
    · exact List.mem_append_right _ (ihts parent _ _ e he f hf)

/-- The arrays of a postorder have the trees that they were made from. -/
theorem spans_of_entries :
    (∀ (t : Rose α) (parent : Option ℕ) (p q : ℕ),
      (∀ e ∈ entries t parent p q, A.label e.post = e.tree.value ∧ A.leaf e.post = e.first) →
        Spans A q (q + t.size) [t]) ∧
    ∀ (ts : List (Rose α)) (parent p q : ℕ),
      (∀ e ∈ forestEntries ts parent p q, A.label e.post = e.tree.value ∧ A.leaf e.post = e.first) →
        Spans A q (q + forestSize ts) ts := by
  refine forest_induction (fun a cs ih parent p q h => ?_) (fun parent p q h => ?_)
    (fun t ts iht ihts parent p q h => ?_)
  · obtain ⟨hlabel, hleaf⟩ := h _ (mem_entries_root _ _ _ _)
    have hbelow := ih p (p + 1) q fun e he => h e (List.mem_cons_of_mem _ he)
    simp only [Entry.post, size_node, value, ← Nat.add_assoc, Nat.add_sub_cancel] at hlabel hleaf
    have hroot : Spans A q (q + forestSize cs + 1) ([] ++ [.node (A.label (q + forestSize cs)) cs]) :=
      .snoc (by rw [hleaf]; exact .nil q) (by rw [hleaf]; exact hbelow)
    rwa [hlabel] at hroot
  · exact .nil q
  · have hfirst := iht (some parent) p q fun e he => h e (List.mem_append_left _ he)
    have hrest := ihts parent (p + t.size) (q + t.size) fun e he => h e (List.mem_append_right _ he)
    rw [forestSize_cons, ← Nat.add_assoc]
    exact hfirst.append hrest

/-- The arrays of a postorder from right to left have the mirror images. The node `p` of the
preorder of `n` nodes has the number `n - 1 - p` in it. -/
theorem spans_mirror_of_entries (n : ℕ) :
    (∀ (t : Rose α) (parent : Option ℕ) (p q : ℕ), p + t.size ≤ n →
      (∀ e ∈ entries t parent p q, A.label (n - 1 - e.pre) = e.tree.value ∧
        A.leaf (n - 1 - e.pre) = n - e.pre - e.tree.size) →
        Spans A (n - p - t.size) (n - p) [t.mirror]) ∧
    ∀ (ts : List (Rose α)) (parent p q : ℕ), p + forestSize ts ≤ n →
      (∀ e ∈ forestEntries ts parent p q, A.label (n - 1 - e.pre) = e.tree.value ∧
        A.leaf (n - 1 - e.pre) = n - e.pre - e.tree.size) →
        Spans A (n - p - forestSize ts) (n - p) (forestMirror ts) := by
  refine forest_induction (fun a cs ih parent p q hn h => ?_) (fun parent p q hn h => ?_)
    (fun t ts iht ihts parent p q hn h => ?_)
  · rw [size_node] at hn ⊢
    obtain ⟨hlabel, hleaf⟩ := h _ (mem_entries_root _ _ _ _)
    have hbelow := ih p (p + 1) q (by omega) fun e he => h e (List.mem_cons_of_mem _ he)
    simp only [size_node, value] at hlabel hleaf
    rw [show n - (p + 1) - forestSize cs = n - p - (forestSize cs + 1) by omega,
      show n - (p + 1) = n - 1 - p by omega] at hbelow
    have hroot : Spans A (n - p - (forestSize cs + 1)) (n - 1 - p + 1)
        ([] ++ [.node (A.label (n - 1 - p)) (forestMirror cs)]) :=
      .snoc (by rw [hleaf]; exact .nil _) (by rw [hleaf]; exact hbelow)
    rwa [hlabel, show n - 1 - p + 1 = n - p by omega] at hroot
  · exact .nil _
  · rw [forestSize_cons] at hn ⊢
    have hfirst := iht (some parent) p q (by omega) fun e he => h e (List.mem_append_left _ he)
    have hrest := ihts parent (p + t.size) (q + t.size) (by omega) fun e he =>
      h e (List.mem_append_right _ he)
    rw [show n - (p + t.size) - forestSize ts = n - p - (t.size + forestSize ts) by omega,
      show n - (p + t.size) = n - p - t.size by omega] at hrest
    exact hrest.append hfirst

end Rose
