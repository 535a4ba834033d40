-- The edit distance of ordered trees. A mapping pairs nodes of two trees so
-- that ancestors and the order from left to right are kept. It renames the
-- nodes that it pairs, deletes the other nodes of the first tree and inserts
-- the other nodes of the second. The distance is the least cost of a mapping.
import Ditto.Lib.Rose
import Mathlib.Algebra.Order.BigOperators.Group.Finset
import Mathlib.Data.Finset.Max
import Mathlib.Data.Finset.Powerset
import Mathlib.Data.Finset.Prod
import Mathlib.Order.Bounds.Basic
import Mathlib.Tactic.Abel

namespace TreeEdit

open Rose

variable {α β R : Type}

/-! ## Mappings -/

/-- One node is left of another if their paths part, the first one to the left. -/
def LeftOf : Path → Path → Prop
  | i :: p, j :: q => i < j ∨ i = j ∧ LeftOf p q
  | _, _ => False

/-- The pairs of an ordered edit mapping. -/
structure IsMapping (s t : Rose α) (m : Finset (Path × Path)) : Prop where
  fst_mem : ∀ e ∈ m, e.1 ∈ s.paths
  snd_mem : ∀ e ∈ m, e.2 ∈ t.paths
  one_to_one : ∀ e ∈ m, ∀ f ∈ m, e.1 = f.1 ↔ e.2 = f.2
  ancestor : ∀ e ∈ m, ∀ f ∈ m, e.1 <+: f.1 ↔ e.2 <+: f.2
  left_of : ∀ e ∈ m, ∀ f ∈ m, LeftOf e.1 f.1 ↔ LeftOf e.2 f.2

variable {s t : Rose α} {m : Finset (Path × Path)}

theorem IsMapping.empty (s t : Rose α) : IsMapping s t ∅ := by
  constructor <;> simp

/-- Equal shapes are mapped node by node. -/
theorem IsMapping.diagonal (h : s.paths = t.paths) :
    IsMapping s t (s.paths.toFinset.image fun p => (p, p)) := by
  constructor <;> simp [h]

theorem IsMapping.swap (h : IsMapping s t m) : IsMapping t s (m.image Prod.swap) where
  fst_mem := by
    simp only [Finset.forall_mem_image]
    exact h.snd_mem
  snd_mem := by
    simp only [Finset.forall_mem_image]
    exact h.fst_mem
  one_to_one := by
    simp only [Finset.forall_mem_image]
    exact fun e he f hf => (h.one_to_one e he f hf).symm
  ancestor := by
    simp only [Finset.forall_mem_image]
    exact fun e he f hf => (h.ancestor e he f hf).symm
  left_of := by
    simp only [Finset.forall_mem_image]
    exact fun e he f hf => (h.left_of e he f hf).symm

theorem isMapping_map (f : α → β) : IsMapping (s.map f) (t.map f) m ↔ IsMapping s t m := by
  constructor
  · rintro ⟨hfst, hsnd, hone, hanc, hleft⟩
    exact ⟨by simpa using hfst, by simpa using hsnd, hone, hanc, hleft⟩
  · rintro ⟨hfst, hsnd, hone, hanc, hleft⟩
    exact ⟨by simpa using hfst, by simpa using hsnd, hone, hanc, hleft⟩

theorem IsMapping.injOn_fst (h : IsMapping s t m) : Set.InjOn Prod.fst (m : Set (Path × Path)) :=
  fun e he f hf heq => Prod.ext heq ((h.one_to_one e he f hf).mp heq)

theorem IsMapping.injOn_snd (h : IsMapping s t m) : Set.InjOn Prod.snd (m : Set (Path × Path)) :=
  fun e he f hf heq => Prod.ext ((h.one_to_one e he f hf).mpr heq) heq

theorem IsMapping.image_fst_subset (h : IsMapping s t m) :
    m.image Prod.fst ⊆ s.paths.toFinset := by
  intro p hp
  obtain ⟨e, he, rfl⟩ := Finset.mem_image.mp hp
  exact List.mem_toFinset.mpr (h.fst_mem e he)

theorem IsMapping.image_snd_subset (h : IsMapping s t m) :
    m.image Prod.snd ⊆ t.paths.toFinset := by
  intro p hp
  obtain ⟨e, he, rfl⟩ := Finset.mem_image.mp hp
  exact List.mem_toFinset.mpr (h.snd_mem e he)

/-! ## Costs -/

/-- What the edits of a node cost, by the values of the nodes. -/
structure CostModel (α R : Type) where
  ren : α → α → R
  del : α → R
  ins : α → R

namespace CostModel

/-- The costs of values that stand for others. -/
def comap (c : CostModel β R) (f : α → β) : CostModel α R where
  ren a b := c.ren (f a) (f b)
  del a := c.del (f a)
  ins a := c.ins (f a)

variable [AddCommGroup R] (c : CostModel α R)

def renAt (s t : Rose α) (e : Path × Path) : R :=
  ((s.valueAt e.1).bind fun a => (t.valueAt e.2).map (c.ren a)).getD 0

def delAt (s : Rose α) (p : Path) : R := ((s.valueAt p).map c.del).getD 0

def insAt (t : Rose α) (p : Path) : R := ((t.valueAt p).map c.ins).getD 0

/-- The cost of a mapping. -/
def cost (s t : Rose α) (m : Finset (Path × Path)) : R :=
  ∑ e ∈ m, c.renAt s t e + ∑ p ∈ s.paths.toFinset \ m.image Prod.fst, c.delAt s p +
    ∑ p ∈ t.paths.toFinset \ m.image Prod.snd, c.insAt t p

/-- The cost of the empty mapping: all nodes of one tree are deleted and all nodes of the
other are inserted. -/
theorem cost_empty (s t : Rose α) :
    c.cost s t ∅ = (s.values.map c.del).sum + (t.values.map c.ins).sum := by
  simp only [cost, Finset.sum_empty, Finset.image_empty, Finset.sdiff_empty, zero_add]
  rw [← sum_paths c.del, ← sum_paths c.ins]
  rfl

theorem exists_renAt {e : Path × Path} (hs : e.1 ∈ s.paths) (ht : e.2 ∈ t.paths) :
    ∃ a ∈ s.values, ∃ b ∈ t.values, c.renAt s t e = c.ren a b ∧ c.delAt s e.1 = c.del a ∧
      c.insAt t e.2 = c.ins b := by
  obtain ⟨a, ha, hsa⟩ := exists_valueAt_of_mem hs
  obtain ⟨b, hb, htb⟩ := exists_valueAt_of_mem ht
  exact ⟨a, ha, b, hb, by simp [renAt, hsa, htb], by simp [delAt, hsa], by simp [insAt, htb]⟩

/-- Where a rename costs as much as a delete and an insert, all mappings cost the same. -/
theorem cost_eq_of_ren (hren : ∀ a ∈ s.values, ∀ b ∈ t.values, c.ren a b = c.del a + c.ins b)
    (h : IsMapping s t m) : c.cost s t m = (s.values.map c.del).sum + (t.values.map c.ins).sum := by
  have hpairs : ∑ e ∈ m, c.renAt s t e =
      ∑ p ∈ m.image Prod.fst, c.delAt s p + ∑ p ∈ m.image Prod.snd, c.insAt t p := by
    rw [Finset.sum_image h.injOn_fst, Finset.sum_image h.injOn_snd, ← Finset.sum_add_distrib]
    refine Finset.sum_congr rfl fun e he => ?_
    obtain ⟨a, ha, b, hb, hr, hd, hi⟩ := c.exists_renAt (h.fst_mem e he) (h.snd_mem e he)
    rw [hr, hd, hi, hren a ha b hb]
  have hdel := Finset.sum_sdiff (f := c.delAt s) h.image_fst_subset
  have hins := Finset.sum_sdiff (f := c.insAt t) h.image_snd_subset
  rw [← cost_empty, cost, cost, hpairs]
  simp only [Finset.sum_empty, Finset.image_empty, Finset.sdiff_empty, zero_add]
  rw [← hdel, ← hins]
  abel

theorem cost_swap (hren : ∀ a b, c.ren a b = c.ren b a) (hdel : ∀ a, c.del a = c.ins a) :
    c.cost t s (m.image Prod.swap) = c.cost s t m := by
  have hswap : ∀ e : Path × Path, c.renAt t s e.swap = c.renAt s t e := by
    intro e
    simp only [renAt, Prod.fst_swap, Prod.snd_swap]
    cases t.valueAt e.2 <;> cases s.valueAt e.1 <;> simp [hren]
  have hfun : c.del = c.ins := funext hdel
  have hat : c.delAt = c.insAt := by
    unfold delAt insAt
    rw [hfun]
  have hfst : (m.image Prod.swap).image Prod.fst = m.image Prod.snd := by
    rw [Finset.image_image]
    rfl
  have hsnd : (m.image Prod.swap).image Prod.snd = m.image Prod.fst := by
    rw [Finset.image_image]
    rfl
  rw [cost, cost, Finset.sum_image (Prod.swap_injective.injOn), hfst, hsnd, hat]
  simp only [hswap]
  abel

theorem cost_map (c : CostModel β R) (f : α → β) :
    c.cost (s.map f) (t.map f) m = (c.comap f).cost s t m := by
  simp [cost, renAt, delAt, insAt, comap, Option.map_map, Function.comp_def, Option.bind_map]

/-- Trees of one shape are renamed node by node. -/
theorem cost_diagonal (h : s.paths = t.paths)
    (hren : ∀ p ∈ s.paths, c.renAt s t (p, p) = 0) :
    c.cost s t (s.paths.toFinset.image fun p => (p, p)) = 0 := by
  have hfst : (s.paths.toFinset.image fun p => (p, p)).image Prod.fst = s.paths.toFinset := by
    simp [Finset.image_image, Function.comp_def]
  have hsnd : (s.paths.toFinset.image fun p => (p, p)).image Prod.snd = t.paths.toFinset := by
    simp [Finset.image_image, Function.comp_def, h]
  rw [cost, hfst, hsnd, Finset.sdiff_self, Finset.sdiff_self]
  simp only [Finset.sum_empty, add_zero]
  refine Finset.sum_eq_zero fun e he => ?_
  obtain ⟨p, hp, rfl⟩ := Finset.mem_image.mp he
  exact hren p (List.mem_toFinset.mp hp)

/-! ## The distance -/

variable [LinearOrder R]

/-- A value is the distance of two trees if it is the least cost of a mapping. -/
def IsDistance (s t : Rose α) (d : R) : Prop :=
  IsLeast {x | ∃ m, IsMapping s t m ∧ c.cost s t m = x} d

variable {c} {d : R}

theorem exists_isDistance (c : CostModel α R) (s t : Rose α) : ∃ d, c.IsDistance s t d := by
  classical
  let mappings := (s.paths.toFinset ×ˢ t.paths.toFinset).powerset.filter (IsMapping s t)
  have hempty : ∅ ∈ mappings := by simp [mappings, IsMapping.empty]
  obtain ⟨m, hm, hmin⟩ := mappings.exists_min_image (c.cost s t) ⟨∅, hempty⟩
  refine ⟨c.cost s t m, ⟨m, (Finset.mem_filter.mp hm).2, rfl⟩, ?_⟩
  rintro _ ⟨m', hm', rfl⟩
  refine hmin m' (Finset.mem_filter.mpr ⟨Finset.mem_powerset.mpr fun e he => ?_, hm'⟩)
  simp [hm'.fst_mem e he, hm'.snd_mem e he]

theorem IsDistance.le_cost (h : c.IsDistance s t d) (hm : IsMapping s t m) :
    d ≤ c.cost s t m := h.2 ⟨m, hm, rfl⟩

/-- It never costs more than to delete one tree and to insert the other. -/
theorem IsDistance.le_total (h : c.IsDistance s t d) :
    d ≤ (s.values.map c.del).sum + (t.values.map c.ins).sum := by
  rw [← cost_empty]
  exact h.le_cost (IsMapping.empty s t)

theorem IsDistance.eq_total
    (hren : ∀ a ∈ s.values, ∀ b ∈ t.values, c.ren a b = c.del a + c.ins b)
    (h : c.IsDistance s t d) : d = (s.values.map c.del).sum + (t.values.map c.ins).sum := by
  obtain ⟨⟨m, hm, rfl⟩, -⟩ := h
  exact c.cost_eq_of_ren hren hm

theorem IsDistance.swap (hren : ∀ a b, c.ren a b = c.ren b a) (hdel : ∀ a, c.del a = c.ins a)
    (h : c.IsDistance s t d) : c.IsDistance t s d := by
  obtain ⟨⟨m, hm, rfl⟩, hleast⟩ := h
  refine ⟨⟨m.image Prod.swap, hm.swap, c.cost_swap hren hdel⟩, ?_⟩
  rintro _ ⟨m', hm', rfl⟩
  rw [← c.cost_swap (s := t) (t := s) hren hdel]
  exact hleast ⟨m'.image Prod.swap, hm'.swap, rfl⟩

theorem isDistance_map (c : CostModel β R) (f : α → β) :
    c.IsDistance (s.map f) (t.map f) d ↔ (c.comap f).IsDistance s t d := by
  simp only [IsDistance, isMapping_map, cost_map]

/-- The costs of values that the trees do not have make no difference. -/
theorem IsDistance.congr {c' : CostModel α R}
    (hren : ∀ a ∈ s.values, ∀ b ∈ t.values, c.ren a b = c'.ren a b) (hdel : c.del = c'.del)
    (hins : c.ins = c'.ins) (h : c.IsDistance s t d) : c'.IsDistance s t d := by
  have hcost : ∀ m, IsMapping s t m → c.cost s t m = c'.cost s t m := by
    intro m hm
    have hrenAt : ∀ e ∈ m, c.renAt s t e = c'.renAt s t e := by
      intro e he
      obtain ⟨a, ha, hsa⟩ := exists_valueAt_of_mem (hm.fst_mem e he)
      obtain ⟨b, hb, htb⟩ := exists_valueAt_of_mem (hm.snd_mem e he)
      simp [renAt, hsa, htb, hren a ha b hb]
    rw [cost, cost, Finset.sum_congr rfl hrenAt]
    simp only [delAt, insAt, hdel, hins]
  obtain ⟨⟨m, hm, rfl⟩, hleast⟩ := h
  refine ⟨⟨m, hm, (hcost m hm).symm⟩, ?_⟩
  rintro _ ⟨m', hm', rfl⟩
  rw [← hcost m' hm']
  exact hleast ⟨m', hm', rfl⟩

variable [IsOrderedAddMonoid R]

theorem IsDistance.nonneg (hren : ∀ a ∈ s.values, ∀ b ∈ t.values, 0 ≤ c.ren a b)
    (hdel : ∀ a ∈ s.values, 0 ≤ c.del a) (hins : ∀ b ∈ t.values, 0 ≤ c.ins b)
    (h : c.IsDistance s t d) : 0 ≤ d := by
  obtain ⟨⟨m, hm, rfl⟩, -⟩ := h
  refine add_nonneg (add_nonneg (Finset.sum_nonneg fun e he => ?_)
    (Finset.sum_nonneg fun p hp => ?_)) (Finset.sum_nonneg fun p hp => ?_)
  · obtain ⟨a, ha, b, hb, heq, -⟩ := c.exists_renAt (hm.fst_mem e he) (hm.snd_mem e he)
    rw [heq]
    exact hren a ha b hb
  · have hmem : p ∈ s.paths := List.mem_toFinset.mp (Finset.mem_sdiff.mp hp).1
    obtain ⟨a, ha, heq⟩ := exists_valueAt_of_mem hmem
    simpa [delAt, heq] using hdel a ha
  · have hmem : p ∈ t.paths := List.mem_toFinset.mp (Finset.mem_sdiff.mp hp).1
    obtain ⟨b, hb, heq⟩ := exists_valueAt_of_mem hmem
    simpa [insAt, heq] using hins b hb

end CostModel

end TreeEdit
