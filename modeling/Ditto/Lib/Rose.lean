-- Ordered trees in which a node has any number of children. A node is named
-- by its path, the positions of the children on the way down from the root,
-- so a path stays good while other nodes of the tree get children.
import Mathlib.Algebra.BigOperators.Group.Finset.Basic
import Mathlib.Data.List.Basic
import Mathlib.Tactic.Common

/-- A tree with a value at each node. -/
inductive Rose (α : Type) where
  | node (value : α) (children : List (Rose α))

namespace Rose

variable {α β : Type}

/-- Induction over a tree together with its lists of children. -/
theorem forest_induction {p : Rose α → Prop} {q : List (Rose α) → Prop}
    (node : ∀ a cs, q cs → p (.node a cs)) (nil : q [])
    (cons : ∀ t ts, p t → q ts → q (t :: ts)) : (∀ t, p t) ∧ ∀ ts, q ts :=
  ⟨fun t => Rose.rec node nil cons t, fun ts => Rose.rec_1 node nil cons ts⟩

/-! ## Values -/

mutual

/-- The values of a tree, a node before its children. -/
def values : Rose α → List α
  | .node a cs => a :: forestValues cs

/-- The values of the trees of a list, in order. -/
def forestValues : List (Rose α) → List α
  | [] => []
  | t :: ts => values t ++ forestValues ts

end

mutual

/-- The tree of the same shape with the images of the values. -/
def map (f : α → β) : Rose α → Rose β
  | .node a cs => .node (f a) (forestMap f cs)

/-- `map` on the trees of a list. -/
def forestMap (f : α → β) : List (Rose α) → List (Rose β)
  | [] => []
  | t :: ts => map f t :: forestMap f ts

end

theorem forall_mem_values_node {p : α → Prop} {a : α} {cs : List (Rose α)} :
    (∀ b ∈ (node a cs).values, p b) ↔ p a ∧ ∀ b ∈ forestValues cs, p b := by
  simp [values]

theorem forall_mem_forestValues_cons {p : α → Prop} {t : Rose α} {ts : List (Rose α)} :
    (∀ b ∈ forestValues (t :: ts), p b) ↔
      (∀ b ∈ t.values, p b) ∧ ∀ b ∈ forestValues ts, p b := by
  simp [forestValues, or_imp, forall_and]

theorem values_map (f : α → β) :
    (∀ t : Rose α, (t.map f).values = t.values.map f) ∧
      ∀ ts : List (Rose α), forestValues (forestMap f ts) = (forestValues ts).map f := by
  refine forest_induction (fun a cs ih => ?_) rfl (fun t ts iht ihts => ?_)
  · simp [map, values, ih]
  · simp [forestMap, forestValues, iht, ihts]

/-! ## Nodes and their children -/

/-- The positions of the children on the way to a node. -/
abbrev Path := List ℕ

/-- How many children the node at a path has. -/
def childCount : Path → Rose α → Option ℕ
  | [], .node _ cs => some cs.length
  | i :: p, .node _ cs => cs[i]?.bind (childCount p)

/-- The tree with new children behind those of the node at a path. -/
def appendAt : Path → List (Rose α) → Rose α → Rose α
  | [], new, .node a cs => .node a (cs ++ new)
  | i :: p, new, .node a cs => .node a (cs.modify i (appendAt p new))

@[simp] theorem appendAt_nil (p : Path) (t : Rose α) : appendAt p [] t = t := by
  induction p generalizing t with
  | nil =>
    obtain ⟨a, cs⟩ := t
    simp [appendAt]
  | cons i p ih =>
    obtain ⟨a, cs⟩ := t
    have hid : appendAt p [] = id := funext ih
    simp [appendAt, hid]

theorem appendAt_appendAt (p : Path) (new more : List (Rose α)) (t : Rose α) :
    appendAt p more (appendAt p new t) = appendAt p (new ++ more) t := by
  induction p generalizing t with
  | nil =>
    obtain ⟨a, cs⟩ := t
    simp [appendAt]
  | cons i p ih =>
    obtain ⟨a, cs⟩ := t
    have hcomp : appendAt p more ∘ appendAt p new = appendAt p (new ++ more) := funext ih
    simp [appendAt, List.modify_modify_eq, hcomp]

theorem childCount_appendAt {p : Path} {t : Rose α} {n : ℕ} (h : childCount p t = some n)
    (new : List (Rose α)) : childCount p (appendAt p new t) = some (n + new.length) := by
  induction p generalizing t with
  | nil =>
    obtain ⟨a, cs⟩ := t
    simp_all [appendAt, childCount]
  | cons i p ih =>
    obtain ⟨a, cs⟩ := t
    obtain ⟨c, hc, hn⟩ := Option.bind_eq_some_iff.mp h
    simp [appendAt, childCount, hc, ih hn]

/-- The path to a new child of a node that had `n` children. -/
theorem childCount_child {p : Path} {t : Rose α} {n : ℕ} (h : childCount p t = some n)
    (c : Rose α) : childCount (p ++ [n]) (appendAt p [c] t) = childCount [] c := by
  induction p generalizing t with
  | nil =>
    obtain ⟨a, cs⟩ := t
    obtain rfl : cs.length = n := by simpa [childCount] using h
    simp [appendAt, childCount]
  | cons i p ih =>
    obtain ⟨a, cs⟩ := t
    obtain ⟨d, hd, hn⟩ := Option.bind_eq_some_iff.mp h
    simp [appendAt, childCount, hd, ih hn]

/-- Children for a new child may as well be there before it is added. -/
theorem appendAt_child {p : Path} {t : Rose α} {n : ℕ} (h : childCount p t = some n)
    (c : Rose α) (new : List (Rose α)) :
    appendAt (p ++ [n]) new (appendAt p [c] t) = appendAt p [appendAt [] new c] t := by
  induction p generalizing t with
  | nil =>
    obtain ⟨a, cs⟩ := t
    obtain rfl : cs.length = n := by simpa [childCount] using h
    simp [appendAt, List.modify_eq_take_cons_drop]
  | cons i p ih =>
    obtain ⟨a, cs⟩ := t
    obtain ⟨d, hd, hn⟩ := Option.bind_eq_some_iff.mp h
    simp only [List.cons_append, appendAt, node.injEq, true_and]
    rw [List.modify_modify_eq]
    refine List.ext_getElem? fun j => ?_
    rw [List.getElem?_modify, List.getElem?_modify]
    by_cases hj : i = j
    · subst hj
      simp [hd, ih hn]
    · simp [hj]

/-! ## All nodes -/

mutual

/-- The paths of a tree, a node before its children. -/
def paths : Rose α → List Path
  | .node _ cs => [] :: forestPaths 0 cs

/-- The paths of the children from position `i` on. -/
def forestPaths : ℕ → List (Rose α) → List Path
  | _, [] => []
  | i, t :: ts => t.paths.map (i :: ·) ++ forestPaths (i + 1) ts

end

/-- The value of the node at a path. -/
def valueAt : Path → Rose α → Option α
  | [], .node a _ => some a
  | i :: p, .node _ cs => cs[i]?.bind (valueAt p)

/-- The paths and the values of a tree are in the same order. -/
theorem map_valueAt_paths (t : Rose α) : t.paths.map (valueAt · t) = t.values.map some := by
  refine (forest_induction (p := fun t => t.paths.map (valueAt · t) = t.values.map some)
    (q := fun ts => ∀ a pre, (forestPaths pre.length ts).map (valueAt · (.node a (pre ++ ts))) =
      (forestValues ts).map some)
    (fun a cs ih => ?_) (fun a pre => rfl) (fun t ts iht ihts a pre => ?_)).1 t
  · simpa [paths, values, valueAt] using ih a []
  · have hhead : (t.paths.map (pre.length :: ·)).map (valueAt · (.node a (pre ++ t :: ts))) =
        t.values.map some := by
      simp [← iht, valueAt, Function.comp_def]
    have htail : (forestPaths (pre.length + 1) ts).map (valueAt · (.node a (pre ++ t :: ts))) =
        (forestValues ts).map some := by
      simpa using ihts a (pre ++ [t])
    rw [forestPaths, List.map_append, hhead, htail, forestValues, List.map_append]

theorem exists_of_mem_forestPaths {ts : List (Rose α)} {i : ℕ} {p : Path}
    (h : p ∈ forestPaths i ts) : ∃ j q, p = j :: q ∧ i ≤ j := by
  induction ts generalizing i with
  | nil => simp [forestPaths] at h
  | cons t ts ih =>
    rw [forestPaths, List.mem_append, List.mem_map] at h
    rcases h with ⟨q, -, rfl⟩ | h
    · exact ⟨i, q, rfl, le_rfl⟩
    · obtain ⟨j, q, rfl, hj⟩ := ih h
      exact ⟨j, q, rfl, by omega⟩

theorem nodup_paths (t : Rose α) : t.paths.Nodup := by
  refine (forest_induction (p := fun t => t.paths.Nodup)
    (q := fun ts => ∀ i, (forestPaths i ts).Nodup)
    (fun a cs ih => ?_) (fun i => List.nodup_nil) (fun t ts iht ihts i => ?_)).1 t
  · refine List.nodup_cons.mpr ⟨fun h => ?_, ih 0⟩
    obtain ⟨j, q, heq, -⟩ := exists_of_mem_forestPaths h
    cases heq
  · refine List.nodup_append.mpr ⟨iht.map (List.cons_injective), ihts (i + 1), ?_⟩
    rintro p hp q hq rfl
    obtain ⟨p', -, rfl⟩ := List.mem_map.mp hp
    obtain ⟨j, q, heq, hj⟩ := exists_of_mem_forestPaths hq
    cases heq
    omega

theorem forestMap_eq_map (f : α → β) (ts : List (Rose α)) : forestMap f ts = ts.map (map f) := by
  induction ts with
  | nil => rfl
  | cons t ts ih => rw [forestMap, ih, List.map_cons]

@[simp] theorem paths_map (f : α → β) (t : Rose α) : (t.map f).paths = t.paths := by
  refine (forest_induction (p := fun t => (t.map f).paths = t.paths)
    (q := fun ts => ∀ i, forestPaths i (forestMap f ts) = forestPaths i ts)
    (fun a cs ih => ?_) (fun i => rfl) (fun t ts iht ihts i => ?_)).1 t
  · rw [map, paths, paths, ih]
  · rw [forestMap, forestPaths, forestPaths, iht, ihts]

@[simp] theorem valueAt_map (f : α → β) (p : Path) (t : Rose α) :
    (t.map f).valueAt p = (t.valueAt p).map f := by
  induction p generalizing t with
  | nil =>
    obtain ⟨a, cs⟩ := t
    rfl
  | cons i p ih =>
    obtain ⟨a, cs⟩ := t
    simp only [map, valueAt, forestMap_eq_map, List.getElem?_map]
    cases cs[i]? with
    | none => rfl
    | some c => exact ih c

theorem exists_valueAt_of_mem {t : Rose α} {p : Path} (h : p ∈ t.paths) :
    ∃ a ∈ t.values, t.valueAt p = some a := by
  have hmem : t.valueAt p ∈ t.paths.map (valueAt · t) := List.mem_map_of_mem h
  rw [map_valueAt_paths, List.mem_map] at hmem
  obtain ⟨a, ha, heq⟩ := hmem
  exact ⟨a, ha, heq.symm⟩

/-- A sum over the nodes of a tree is the sum over its values. -/
theorem sum_paths {R : Type} [AddCommMonoid R] (f : α → R) (t : Rose α) :
    ∑ p ∈ t.paths.toFinset, ((t.valueAt p).map f).getD 0 = (t.values.map f).sum := by
  have hvalues := congrArg (List.map fun o => (o.map f).getD 0) (map_valueAt_paths t)
  rw [List.sum_toFinset _ t.nodup_paths]
  simp only [List.map_map, Function.comp_def, Option.map_some, Option.getD_some] at hvalues
  rw [hvalues]

/-! ## The order of siblings -/

/-- Two trees that differ only in the order of siblings. -/
inductive Reordered : Rose α → Rose α → Prop
  | node (a : α) {cs ds ds' : List (Rose α)} (children : List.Forall₂ Reordered cs ds)
      (perm : ds.Perm ds') : Reordered (.node a cs) (.node a ds')

theorem Reordered.map (f : α → β) {t t' : Rose α} (h : Reordered t t') :
    Reordered (t.map f) (t'.map f) := by
  refine (forest_induction (p := fun t => ∀ t', Reordered t t' → Reordered (t.map f) (t'.map f))
    (q := fun ts => ∀ ts', List.Forall₂ Reordered ts ts' →
      List.Forall₂ Reordered (forestMap f ts) (forestMap f ts'))
    (fun a cs ih t' h => ?_) (fun ts' h => ?_) (fun t ts iht ihts ts' h => ?_)).1 t t' h
  · cases h with
    | node _ hchildren hperm =>
      refine .node _ (ih _ hchildren) ?_
      rw [forestMap_eq_map, forestMap_eq_map]
      exact hperm.map _
  · cases h
    exact .nil
  · cases h with
    | cons hhead htail => exact .cons (iht _ hhead) (ihts _ htail)

end Rose
