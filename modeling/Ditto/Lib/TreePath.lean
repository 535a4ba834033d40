-- Paths in a tree with numbered nodes. A path goes up from a node to one of
-- the nodes above it, and on the way it passes the trees beside the path.
-- With the nodes on the path they are the whole tree.
import Ditto.Lib.PostOrder
import Mathlib.Algebra.GroupWithZero.Nat

namespace Rose

variable {α : Type}

/-- The roots of a list of siblings, with their numbers. -/
def siblings : List (Rose α) → ℕ → ℕ → ℕ → List (Entry α)
  | [], _, _, _ => []
  | t :: ts, parent, p, q =>
    ⟨some parent, p, q, t⟩ :: siblings ts parent (p + t.size) (q + t.size)

namespace Entry

/-- The children of a node. -/
def kids (e : Entry α) : List (Entry α) := siblings e.tree.children e.pre (e.pre + 1) e.first

/-- The node and all nodes below it. -/
def nodes (e : Entry α) : List (Entry α) := entries e.tree e.parent e.pre e.first

end Entry

/-- A tree as the node that has no parent. -/
def root (t : Rose α) : Entry α := ⟨none, 0, 0, t⟩

variable {e f g x c o : Entry α} {os : List (Entry α)} {ts : List (Rose α)} {parent q : ℕ}

theorem mem_forestEntries_iff {p : ℕ} :
    x ∈ forestEntries ts parent p q ↔ ∃ c ∈ siblings ts parent p q, x ∈ c.nodes := by
  induction ts generalizing p q with
  | nil => simp [forestEntries, siblings]
  | cons t ts ih => simp [forestEntries, siblings, ih, Entry.nodes]

/-- A node of a tree is its root or a node of a child. -/
theorem mem_nodes_iff : x ∈ e.nodes ↔ x = e ∨ ∃ c ∈ e.kids, x ∈ c.nodes := by
  rw [Entry.nodes, entries_eq_cons, List.mem_cons, mem_forestEntries_iff]
  rfl

theorem mem_nodes_self (e : Entry α) : e ∈ e.nodes := mem_nodes_iff.mpr (.inl rfl)

theorem mem_nodes_of_kid (hc : c ∈ e.kids) : c ∈ e.nodes :=
  mem_nodes_iff.mpr (.inr ⟨c, hc, mem_nodes_self c⟩)

theorem mem_nodes_trans (hf : f ∈ e.nodes) (hx : x ∈ f.nodes) : x ∈ e.nodes :=
  entries_trans.1 e.tree e.parent e.pre e.first f hf x hx

theorem size_eq (t : Rose α) : t.size = forestSize t.children + 1 := by
  obtain ⟨a, cs⟩ := t
  rfl

theorem nodes_bounds (hx : x ∈ e.nodes) : e.pre ≤ x.pre ∧ x.pre + x.tree.size ≤ e.pre + e.tree.size ∧
    e.first ≤ x.first ∧ x.first + x.tree.size ≤ e.first + e.tree.size :=
  entries_bounds.1 e.tree e.parent e.pre e.first x hx

theorem siblings_bounds {p : ℕ} (hc : c ∈ siblings ts parent p q) :
    c.parent = some parent ∧ p ≤ c.pre ∧ c.pre + c.tree.size ≤ p + forestSize ts ∧ q ≤ c.first ∧
      c.first + c.tree.size ≤ q + forestSize ts := by
  induction ts generalizing p q with
  | nil => cases hc
  | cons t ts ih =>
    rw [forestSize_cons]
    rcases List.mem_cons.mp hc with rfl | hc
    · refine ⟨rfl, ?_⟩
      dsimp only
      omega
    · obtain ⟨hparent, hbounds⟩ := ih hc
      exact ⟨hparent, by omega⟩

/-- A child comes after its parent and is smaller. -/
theorem kids_bounds (hc : c ∈ e.kids) : c.parent = some e.pre ∧ e.pre < c.pre ∧
    c.pre + c.tree.size ≤ e.pre + e.tree.size ∧ c.tree.size < e.tree.size := by
  obtain ⟨hparent, hbounds⟩ := siblings_bounds hc
  rw [size_eq e.tree]
  exact ⟨hparent, by omega⟩

/-- Siblings have their own numbers. -/
theorem siblings_disjoint {p : ℕ} (hc : c ∈ siblings ts parent p q)
    (ho : o ∈ siblings ts parent p q) :
    c = o ∨ (c.pre + c.tree.size ≤ o.pre ∧ c.first + c.tree.size ≤ o.first) ∨
      (o.pre + o.tree.size ≤ c.pre ∧ o.first + o.tree.size ≤ c.first) := by
  induction ts generalizing p q with
  | nil => cases hc
  | cons t ts ih =>
    rcases List.mem_cons.mp hc with rfl | hc <;> rcases List.mem_cons.mp ho with rfl | ho
    · exact .inl rfl
    · have := siblings_bounds ho
      exact .inr (.inl ⟨this.2.1, this.2.2.2.1⟩)
    · have := siblings_bounds hc
      exact .inr (.inr ⟨this.2.1, this.2.2.2.1⟩)
    · exact ih hc ho

/-- A sum over siblings, with one of them taken out. -/
theorem sum_siblings {p : ℕ} (hc : c ∈ siblings ts parent p q) (φ : Entry α → ℕ) :
    ((siblings ts parent p q).map φ).sum =
      φ c + (((siblings ts parent p q).filter fun o => o.pre ≠ c.pre).map φ).sum := by
  induction ts generalizing p q with
  | nil => cases hc
  | cons t ts ih =>
    have hpos := t.size_pos
    rw [siblings] at hc ⊢
    rcases List.mem_cons.mp hc with rfl | hc
    · have hrest : (siblings ts parent (p + t.size) (q + t.size)).filter (fun o => o.pre ≠ p) =
          siblings ts parent (p + t.size) (q + t.size) := by
        refine List.filter_eq_self.mpr fun o ho => ?_
        have := (siblings_bounds ho).2.1
        simp only [decide_eq_true_eq]
        omega
      rw [List.filter_cons_of_neg (by simp), hrest]
      simp
    · have hne : p ≠ c.pre := by
        have := (siblings_bounds hc).2.1
        omega
      rw [List.filter_cons_of_pos (by simpa using hne), List.map_cons, List.sum_cons, ih hc,
        List.map_cons, List.sum_cons]
      omega

/-- A node is found by its number in preorder. -/
theorem eq_of_pre_eq (hx : x ∈ e.nodes) (hf : f ∈ e.nodes) (heq : x.pre = f.pre) : x = f := by
  induction hn : e.tree.size using Nat.strong_induction_on generalizing e with
  | _ n ih =>
    rcases mem_nodes_iff.mp hx with rfl | ⟨c, hc, hx'⟩ <;>
      rcases mem_nodes_iff.mp hf with rfl | ⟨o, ho, hf'⟩
    · rfl
    · have := kids_bounds ho
      have := nodes_bounds hf'
      omega
    · have := kids_bounds hc
      have := nodes_bounds hx'
      omega
    · have hcb := nodes_bounds hx'
      have hob := nodes_bounds hf'
      have := x.tree.size_pos
      have := f.tree.size_pos
      rcases siblings_disjoint hc ho with rfl | hlt | hlt
      · exact ih _ (hn ▸ (kids_bounds hc).2.2.2) hx' hf' rfl
      · omega
      · omega

theorem values_sublist_of_sibling {p : ℕ} (hc : c ∈ siblings ts parent p q) :
    c.tree.values.Sublist (forestValues ts) := by
  induction ts generalizing p q with
  | nil => cases hc
  | cons t ts ih =>
    rcases List.mem_cons.mp hc with rfl | hc
    · exact List.sublist_append_left _ _
    · exact (ih hc).trans (List.sublist_append_right _ _)

/-- The values of a subtree are values of the tree. -/
theorem values_sublist (hx : x ∈ e.nodes) : x.tree.values.Sublist e.tree.values := by
  induction hn : e.tree.size using Nat.strong_induction_on generalizing e with
  | _ n ih =>
    rcases mem_nodes_iff.mp hx with rfl | ⟨c, hc, hx'⟩
    · exact .refl _
    · have hsub := (ih _ (hn ▸ (kids_bounds hc).2.2.2) hx' rfl).trans (values_sublist_of_sibling hc)
      obtain ⟨parent, p, q, ⟨a, cs⟩⟩ := e
      exact hsub.trans (List.sublist_cons_self a _)

/-- A node without nodes below it. -/
theorem eq_of_mem_leaf (hsize : g.tree.size = 1) (hx : x ∈ g.nodes) : x = g := by
  rcases mem_nodes_iff.mp hx with rfl | ⟨c, hc, -⟩
  · rfl
  · have := (kids_bounds hc).2.2.2
    have := c.tree.size_pos
    omega

/-- The nodes are listed in preorder. -/
theorem entries_preorder :
    (∀ (t : Rose α) (parent : Option ℕ) (p q : ℕ),
      (entries t parent p q).map Entry.pre = List.range' p t.size ∧
      (entries t parent p q).map (fun e => e.tree.value) = t.values) ∧
    ∀ (ts : List (Rose α)) (parent p q : ℕ),
      (forestEntries ts parent p q).map Entry.pre = List.range' p (forestSize ts) ∧
      (forestEntries ts parent p q).map (fun e => e.tree.value) = forestValues ts := by
  refine forest_induction (fun a cs ih parent p q => ?_) (fun parent p q => ⟨rfl, rfl⟩)
    (fun t ts iht ihts parent p q => ?_)
  · obtain ⟨hpre, hvalues⟩ := ih p (p + 1) q
    simp only [entries, List.map_cons, hpre, hvalues, size_node, List.range'_succ, values]
    exact ⟨trivial, rfl⟩
  · simp [forestEntries, iht, ihts, forestValues, ← List.range'_append_1]

/-- A node below another one has a parent there. -/
theorem exists_parent (hx : x ∈ e.nodes) (hne : x ≠ e) :
    ∃ p, x.parent = some p ∧ e.pre ≤ p ∧ p < x.pre := by
  induction hn : e.tree.size using Nat.strong_induction_on generalizing e with
  | _ n ih =>
    rcases mem_nodes_iff.mp hx with rfl | ⟨c, hc, hx'⟩
    · exact absurd rfl hne
    · have hbounds := kids_bounds hc
      by_cases hxc : x = c
      · exact ⟨e.pre, hxc ▸ hbounds.1, le_rfl, hxc ▸ hbounds.2.1⟩
      · obtain ⟨p, hp, hle, hlt⟩ := ih _ (hn ▸ hbounds.2.2.2) hx' hxc rfl
        exact ⟨p, hp, by omega, hlt⟩

/-- The parent of a node comes before it. -/
theorem parent_lt {t : Rose α} (hx : x ∈ (root t).nodes) {p : ℕ} (hp : x.parent = some p) :
    p < x.pre := by
  by_cases hroot : x = root t
  · rw [hroot] at hp
    cases hp
  · obtain ⟨p', hp', -, hlt⟩ := exists_parent hx hroot
    rw [hp] at hp'
    cases hp'
    exact hlt

theorem post_eq (e : Entry α) : e.post = e.first + forestSize e.tree.children := by
  rw [Entry.post, size_eq]
  omega

theorem exists_sibling_of_post {p k : ℕ} (hle : q ≤ k) (hlt : k < q + forestSize ts) :
    ∃ c ∈ siblings ts parent p q, c.first ≤ k ∧ k ≤ c.post := by
  induction ts generalizing p q with
  | nil =>
    rw [forestSize_nil] at hlt
    omega
  | cons t ts ih =>
    rw [forestSize_cons] at hlt
    by_cases hk : k < q + t.size
    · refine ⟨_, List.mem_cons_self, hle, ?_⟩
      simp only [Entry.post]
      omega
    · obtain ⟨c, hc, hbounds⟩ := ih (p := p + t.size) (q := q + t.size) (by omega) (by omega)
      exact ⟨c, List.mem_cons_of_mem _ hc, hbounds⟩

/-- Every number of a subtree in postorder is the number of a node. -/
theorem exists_node_post {k : ℕ} (hle : e.first ≤ k) (hk : k ≤ e.post) :
    ∃ x ∈ e.nodes, x.post = k := by
  induction hn : e.tree.size using Nat.strong_induction_on generalizing e with
  | _ n ih =>
    rcases Nat.eq_or_lt_of_le hk with rfl | hlt
    · exact ⟨e, mem_nodes_self e, rfl⟩
    · rw [post_eq] at hlt
      obtain ⟨c, hc, hfirst, hpost⟩ := exists_sibling_of_post (p := e.pre + 1) hle hlt
      obtain ⟨x, hx, hxk⟩ := ih _ (hn ▸ (kids_bounds hc).2.2.2) hfirst hpost rfl
      exact ⟨x, mem_nodes_iff.mpr (.inr ⟨c, hc, hx⟩), hxk⟩

/-! ## The way up -/

/-- The way from a node `g` up to `e`, with the trees beside it from the bottom up. -/
inductive Above : Entry α → Entry α → List (Entry α) → Prop
  | self (e : Entry α) : Above e e []
  | step {e c g : Entry α} {os : List (Entry α)} (hc : c ∈ e.kids) (below : Above c g os) :
      Above e g (os ++ e.kids.filter fun o => o.pre ≠ c.pre)

theorem exists_above (hg : g ∈ e.nodes) : ∃ os, Above e g os := by
  induction hn : e.tree.size using Nat.strong_induction_on generalizing e with
  | _ n ih =>
    rcases mem_nodes_iff.mp hg with rfl | ⟨c, hc, hg'⟩
    · exact ⟨[], .self g⟩
    · obtain ⟨os, hos⟩ := ih _ (hn ▸ (kids_bounds hc).2.2.2) hg' rfl
      exact ⟨_, .step hc hos⟩

theorem Above.mem (h : Above e g os) : g ∈ e.nodes := by
  induction h with
  | self e => exact mem_nodes_self e
  | step hc _ ih => exact mem_nodes_iff.mpr (.inr ⟨_, hc, ih⟩)

/-- The trees beside the way are below its upper end. -/
theorem Above.mem_of_mem (h : Above e g os) (ho : o ∈ os) :
    o ∈ e.nodes ∧ o.tree.size < e.tree.size := by
  induction h with
  | self e => cases ho
  | step hc _ ih =>
    rcases List.mem_append.mp ho with ho | ho
    · obtain ⟨hmem, hlt⟩ := ih ho
      exact ⟨mem_nodes_trans (mem_nodes_of_kid hc) hmem, hlt.trans (kids_bounds hc).2.2.2⟩
    · have ho' := List.mem_of_mem_filter ho
      exact ⟨mem_nodes_of_kid ho', (kids_bounds ho').2.2.2⟩

/-- A node is above the lower end, below it or in a tree beside the way. -/
theorem Above.cover (h : Above e g os) (hx : x ∈ e.nodes) :
    g ∈ x.nodes ∨ x ∈ g.nodes ∨ ∃ o ∈ os, x ∈ o.nodes := by
  induction h with
  | self e => exact .inr (.inl hx)
  | @step e c g os hc below ih =>
    rcases mem_nodes_iff.mp hx with rfl | ⟨o, ho, hx'⟩
    · exact .inl (mem_nodes_trans (mem_nodes_of_kid hc) below.mem)
    · by_cases hpre : o.pre = c.pre
      · have hoc : o = c := eq_of_pre_eq (mem_nodes_of_kid ho) (mem_nodes_of_kid hc) hpre
        rcases ih (hoc ▸ hx') with hg | hg | ⟨o', ho', hx''⟩
        · exact .inl hg
        · exact .inr (.inl hg)
        · exact .inr (.inr ⟨o', List.mem_append_left _ ho', hx''⟩)
      · exact .inr (.inr ⟨o, List.mem_append_right _ (List.mem_filter.mpr ⟨ho, by simpa using hpre⟩),
          hx'⟩)

theorem siblings_pairwise (ts : List (Rose α)) (parent p q : ℕ) :
    (siblings ts parent p q).Pairwise fun o o' => ∀ x ∈ o.nodes, x ∉ o'.nodes := by
  induction ts generalizing p q with
  | nil => exact .nil
  | cons t ts ih =>
    refine List.pairwise_cons.mpr ⟨fun o' ho' x hx hx' => ?_, ih _ _⟩
    have hbounds := nodes_bounds hx
    have hbounds' := nodes_bounds hx'
    have hsibling := siblings_bounds ho'
    have := x.tree.size_pos
    dsimp only at hbounds
    omega

/-- The trees beside the way have no nodes in common. -/
theorem Above.pairwise (h : Above e g os) :
    os.Pairwise fun o o' => ∀ x ∈ o.nodes, x ∉ o'.nodes := by
  induction h with
  | self e => exact .nil
  | @step e c g os hc below ih =>
    refine List.pairwise_append.mpr ⟨ih, (siblings_pairwise _ _ _ _).filter _,
      fun o ho o' ho' x hx hx' => ?_⟩
    obtain ⟨ho'', hne⟩ := List.mem_filter.mp ho'
    have hbounds := nodes_bounds (mem_nodes_trans (below.mem_of_mem ho).1 hx)
    have hbounds' := nodes_bounds hx'
    have := x.tree.size_pos
    rcases siblings_disjoint hc ho'' with rfl | hlt | hlt
    · simp at hne
    · omega
    · omega

end Rose
