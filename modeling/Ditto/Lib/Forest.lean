-- Lists of trees. A node of a list is named by the position of its tree and
-- the path in it, as the children of a node are. The mirror image has all
-- lists of siblings in the other order.
import Ditto.Lib.Rose

namespace Rose

variable {α : Type}

/-! ## Nodes -/

/-- The value of the node at a path of a list of trees. -/
def forestValueAt : Path → List (Rose α) → Option α
  | [], _ => none
  | i :: p, ts => ts[i]?.bind (valueAt p)

/-- The path leads to a node of the list. -/
def IsNode (ts : List (Rose α)) (p : Path) : Prop := (forestValueAt p ts).isSome = true

@[simp] theorem forestValueAt_nil (ts : List (Rose α)) : forestValueAt [] ts = none := rfl

@[simp] theorem forestValueAt_zero_cons (t : Rose α) (ts : List (Rose α)) (p : Path) :
    forestValueAt (0 :: p) (t :: ts) = t.valueAt p := rfl

@[simp] theorem forestValueAt_succ_cons (t : Rose α) (ts : List (Rose α)) (i : ℕ) (p : Path) :
    forestValueAt ((i + 1) :: p) (t :: ts) = forestValueAt (i :: p) ts := rfl

@[simp] theorem valueAt_nil (a : α) (cs : List (Rose α)) : (node a cs).valueAt [] = some a := rfl

theorem valueAt_of_ne_nil {p : Path} (a : α) (cs : List (Rose α)) (h : p ≠ []) :
    (node a cs).valueAt p = forestValueAt p cs := by
  cases p with
  | nil => exact absurd rfl h
  | cons i p => rfl

variable {ts : List (Rose α)}

theorem IsNode.ne_nil {p : Path} (h : IsNode ts p) : p ≠ [] := by
  rintro rfl
  cases h

theorem not_isNode_nil (p : Path) : ¬ IsNode ([] : List (Rose α)) p := by
  intro h
  cases p with
  | nil => cases h
  | cons i p => cases h

/-- A node of a list is the first root, a node below it or a node of the other trees. -/
theorem IsNode.cases_cons {a : α} {cs : List (Rose α)} {p : Path} (h : IsNode (node a cs :: ts) p) :
    p = [0] ∨ (∃ q, p = 0 :: q ∧ IsNode cs q) ∨ ∃ i q, p = (i + 1) :: q ∧ IsNode ts (i :: q) := by
  cases p with
  | nil => cases h
  | cons i p =>
    cases i with
    | zero =>
      by_cases hp : p = []
      · exact .inl (by rw [hp])
      · refine .inr (.inl ⟨p, rfl, ?_⟩)
        rwa [IsNode, forestValueAt_zero_cons, valueAt_of_ne_nil a cs hp] at h
    | succ i => exact .inr (.inr ⟨i, p, rfl, h⟩)

theorem isNode_append_left {us : List (Rose α)} {i : ℕ} {p : Path} (hi : i < ts.length) :
    forestValueAt (i :: p) (ts ++ us) = forestValueAt (i :: p) ts := by
  simp [forestValueAt, List.getElem?_append_left hi]

theorem isNode_append_right {us : List (Rose α)} {i : ℕ} {p : Path} (hi : ts.length ≤ i) :
    forestValueAt (i :: p) (ts ++ us) = forestValueAt ((i - ts.length) :: p) us := by
  simp [forestValueAt, List.getElem?_append_right hi]

theorem IsNode.lt_length {i : ℕ} {p : Path} (h : IsNode ts (i :: p)) : i < ts.length := by
  by_contra hlt
  rw [IsNode, forestValueAt, List.getElem?_eq_none (not_lt.mp hlt)] at h
  cases h

/-- The paths of a tree are those with a value. -/
theorem mem_paths_iff {t : Rose α} {p : Path} : p ∈ t.paths ↔ (t.valueAt p).isSome = true := by
  constructor
  · intro h
    obtain ⟨a, -, ha⟩ := exists_valueAt_of_mem h
    rw [ha]
    rfl
  · refine (forest_induction (p := fun t => ∀ p, (t.valueAt p).isSome = true → p ∈ t.paths)
      (q := fun ts => ∀ k i p, IsNode ts (i :: p) → (k + i) :: p ∈ forestPaths k ts)
      (fun a cs ih p h => ?_) (fun k i p h => absurd h (not_isNode_nil _))
      (fun t ts iht ihts k i p h => ?_)).1 t p
    · cases p with
      | nil => simp [paths]
      | cons i p => simpa [paths] using ih 0 i p h
    · cases i with
      | zero => simpa [forestPaths] using .inl (iht p h)
      | succ i =>
        have hmem := ihts (k + 1) i p h
        rw [Nat.add_right_comm] at hmem
        exact List.mem_append_right _ hmem

/-! ## Mirror images -/

mutual

/-- The tree with all lists of children in the other order. -/
def mirror : Rose α → Rose α
  | .node a cs => .node a (forestMirror cs)

/-- The list of trees in the other order, each of them mirrored. -/
def forestMirror : List (Rose α) → List (Rose α)
  | [] => []
  | t :: ts => forestMirror ts ++ [mirror t]

end

theorem forestMirror_eq (ts : List (Rose α)) : forestMirror ts = (ts.map mirror).reverse := by
  induction ts with
  | nil => rfl
  | cons t ts ih => rw [forestMirror, ih, List.map_cons, List.reverse_cons]

@[simp] theorem forestMirror_append (ts us : List (Rose α)) :
    forestMirror (ts ++ us) = forestMirror us ++ forestMirror ts := by
  simp [forestMirror_eq]

@[simp] theorem length_forestMirror (ts : List (Rose α)) : (forestMirror ts).length = ts.length := by
  simp [forestMirror_eq]

@[simp] theorem forestMirror_forestMirror (ts : List (Rose α)) :
    forestMirror (forestMirror ts) = ts := by
  refine (forest_induction (p := fun t => mirror (mirror t) = t)
    (q := fun ts => forestMirror (forestMirror ts) = ts)
    (fun a cs ih => ?_) rfl (fun t ts iht ihts => ?_)).2 ts
  · rw [mirror, mirror, ih]
  · rw [forestMirror, forestMirror_append, ihts, forestMirror, forestMirror, iht]
    rfl

@[simp] theorem forestValues_append (ts us : List (Rose α)) :
    forestValues (ts ++ us) = forestValues ts ++ forestValues us := by
  induction ts with
  | nil => rfl
  | cons t ts ih => rw [List.cons_append, forestValues, ih, forestValues, List.append_assoc]

theorem perm_forestValues_mirror (ts : List (Rose α)) :
    (forestValues (forestMirror ts)).Perm (forestValues ts) := by
  refine (forest_induction (p := fun t => (values (mirror t)).Perm (values t))
    (q := fun ts => (forestValues (forestMirror ts)).Perm (forestValues ts))
    (fun a cs ih => ?_) .rfl (fun t ts iht ihts => ?_)).2 ts
  · exact ih.cons a
  · rw [forestMirror, forestValues_append, forestValues, forestValues, forestValues, List.append_nil]
    exact (ihts.append iht).trans List.perm_append_comm

/-- The children of a tree. -/
def children : Rose α → List (Rose α)
  | .node _ cs => cs

/-- The path of the same node in the mirror image. -/
def mirrorPath : Path → List (Rose α) → Path
  | [], _ => []
  | i :: p, ts => (ts.length - 1 - i) :: (ts[i]?.elim [] fun t => mirrorPath p t.children)

@[simp] theorem mirrorPath_nil (ts : List (Rose α)) : mirrorPath [] ts = [] := rfl

theorem mirrorPath_cons {i : ℕ} {t : Rose α} (h : ts[i]? = some t) (p : Path) :
    mirrorPath (i :: p) ts = (ts.length - 1 - i) :: mirrorPath p t.children := by
  rw [mirrorPath, h]
  rfl

theorem getElem?_forestMirror {i : ℕ} {t : Rose α} (h : ts[i]? = some t) :
    (forestMirror ts)[ts.length - 1 - i]? = some (mirror t) := by
  obtain ⟨hi, -⟩ := List.getElem?_eq_some_iff.mp h
  rw [forestMirror_eq, List.getElem?_reverse (by simpa using by omega), List.length_map,
    show ts.length - 1 - (ts.length - 1 - i) = i by omega, List.getElem?_map, h]
  rfl

/-- The tree that a path goes into, and the rest of the path in it. -/
theorem IsNode.exists_tree {i : ℕ} {p : Path} (h : IsNode ts (i :: p)) :
    ∃ t, ts[i]? = some t ∧ (p ≠ [] → IsNode t.children p) := by
  obtain ⟨t, ht⟩ : ∃ t, ts[i]? = some t := ⟨_, List.getElem?_eq_getElem h.lt_length⟩
  refine ⟨t, ht, fun hp => ?_⟩
  obtain ⟨a, cs⟩ := t
  rwa [IsNode, forestValueAt, ht, Option.bind_some, valueAt_of_ne_nil a cs hp] at h

theorem valueAt_mirror {t : Rose α} {p : Path} (h : p ≠ [] → IsNode t.children p) :
    (mirror t).valueAt (mirrorPath p t.children) = t.valueAt p := by
  induction p generalizing t with
  | nil =>
    obtain ⟨a, cs⟩ := t
    rfl
  | cons i p ih =>
    obtain ⟨a, cs⟩ := t
    obtain ⟨c, hc, hp⟩ := (h (List.cons_ne_nil _ _)).exists_tree
    simp only [children] at hc ⊢
    rw [mirrorPath_cons hc, mirror, valueAt, valueAt, getElem?_forestMirror hc, hc]
    exact ih hp

/-- The mirror image has the same value at the mirrored path. -/
theorem forestValueAt_mirror {p : Path} (h : IsNode ts p) :
    forestValueAt (mirrorPath p ts) (forestMirror ts) = forestValueAt p ts := by
  cases p with
  | nil => rfl
  | cons i p =>
    obtain ⟨t, ht, hp⟩ := h.exists_tree
    rw [mirrorPath_cons ht, forestValueAt, forestValueAt, getElem?_forestMirror ht, ht]
    exact valueAt_mirror hp

theorem mirrorPath_prefix_iff {p q : Path} (hp : p ≠ [] → IsNode ts p) (hq : q ≠ [] → IsNode ts q) :
    mirrorPath p ts <+: mirrorPath q ts ↔ p <+: q := by
  induction p generalizing ts q with
  | nil => simp
  | cons i p ih =>
    obtain ⟨t, ht, hp⟩ := (hp (List.cons_ne_nil _ _)).exists_tree
    cases q with
    | nil => simp [mirrorPath]
    | cons j q =>
      obtain ⟨u, hu, hq⟩ := (hq (List.cons_ne_nil _ _)).exists_tree
      rw [mirrorPath_cons ht, mirrorPath_cons hu, List.cons_prefix_cons, List.cons_prefix_cons]
      obtain ⟨hi, -⟩ := List.getElem?_eq_some_iff.mp ht
      obtain ⟨hj, -⟩ := List.getElem?_eq_some_iff.mp hu
      constructor
      · rintro ⟨hij, hpre⟩
        obtain rfl : i = j := by omega
        obtain rfl : t = u := Option.some.inj (ht.symm.trans hu)
        exact ⟨rfl, (ih hp hq).mp hpre⟩
      · rintro ⟨rfl, hpre⟩
        obtain rfl : t = u := Option.some.inj (ht.symm.trans hu)
        exact ⟨rfl, (ih hp hq).mpr hpre⟩

end Rose
