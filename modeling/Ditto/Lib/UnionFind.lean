-- What a union-find is for: after any calls of `find` and `union`, its sets
-- are a partition of the items of the calls, and two items are in one set
-- exactly if unions connect them. A union-find that keeps a root for each item
-- shows that there is one.
import Mathlib.Data.List.Dedup
import Mathlib.Data.List.Induction
import Mathlib.Data.List.Nodup
import Mathlib.Logic.Relation

namespace UnionFind

variable {α : Type}

/-- The calls that make a union-find. -/
inductive Call (α : Type) where
  | find (a : α)
  | union (a b : α)

/-- The items that a call puts into the union-find, if they are not in it. -/
def Call.items : Call α → List α
  | .find a => [a]
  | .union a b => [a, b]

/-- The items of the calls. -/
def Mentioned (calls : List (Call α)) (a : α) : Prop := ∃ c ∈ calls, a ∈ c.items

/-- A call joined two items. -/
def Joined (calls : List (Call α)) (a b : α) : Prop := .union a b ∈ calls

/-- Two items in one set. -/
def Together (sets : List (List α)) (a b : α) : Prop := ∃ c ∈ sets, a ∈ c ∧ b ∈ c

/-- The sets of a union-find, after any calls. -/
structure IsUnionFind (itersets : List (Call α) → List (List α)) : Prop where
  nodup : ∀ calls, (itersets calls).flatten.Nodup
  mem_flatten : ∀ calls a, a ∈ (itersets calls).flatten ↔ Mentioned calls a
  together : ∀ calls a b, Mentioned calls a → Mentioned calls b →
    (Together (itersets calls) a b ↔ Relation.EqvGen (Joined calls) a b)

/-- A function that related items agree on is the same on all connected ones. -/
theorem eq_of_eqvGen {R : α → α → Prop} {f : α → α} (hf : ∀ x y, R x y → f x = f y) {x y : α}
    (h : Relation.EqvGen R x y) : f x = f y := by
  induction h with
  | rel x y h => exact hf x y h
  | refl x => rfl
  | symm x y _ ih => exact ih.symm
  | trans x y z _ _ ihxy ihyz => exact ihxy.trans ihyz

/-! ## The items and their roots -/

variable [DecidableEq α]

/-- The roots after a call: what had the root of `b` has the root of `a`. -/
def joinRoots (root : α → α) : Call α → α → α
  | .find _, x => root x
  | .union a b, x => if root x = root b then root a else root x

def roots (calls : List (Call α)) : α → α := calls.foldl joinRoots id

def items (calls : List (Call α)) : List α := (calls.flatMap Call.items).dedup

/-- The items by their roots. -/
def sets (calls : List (Call α)) : List (List α) :=
  ((items calls).map (roots calls)).dedup.map fun r =>
    (items calls).filter fun a => roots calls a = r

theorem mem_items {calls : List (Call α)} {a : α} : a ∈ items calls ↔ Mentioned calls a := by
  simp [items, Mentioned]

/-- One more union connects what was connected to one of its items. -/
theorem joinRoots_union_iff {root : α → α} {R R' : α → α → Prop} {a b : α}
    (hroot : ∀ x y, root x = root y ↔ Relation.EqvGen R x y)
    (hR : ∀ x y, R' x y ↔ R x y ∨ x = a ∧ y = b) (x y : α) :
    joinRoots root (.union a b) x = joinRoots root (.union a b) y ↔ Relation.EqvGen R' x y := by
  have hmono : ∀ {x y}, root x = root y → Relation.EqvGen R' x y := fun h =>
    ((hroot _ _).mp h).mono fun _ _ hR' => (hR _ _).mpr (.inl hR')
  have hab : Relation.EqvGen R' a b := .rel _ _ ((hR a b).mpr (.inr ⟨rfl, rfl⟩))
  constructor
  · intro h
    simp only [joinRoots] at h
    split at h <;> split at h
    · rename_i hx hy
      exact hmono (hx.trans hy.symm)
    · rename_i hx hy
      exact (hmono hx).trans _ _ _ (hab.symm.trans _ _ _ (hmono h))
    · rename_i hx hy
      exact (hmono h).trans _ _ _ (hab.trans _ _ _ (hmono hy.symm))
    · exact hmono h
  · refine eq_of_eqvGen fun x y h => ?_
    rcases (hR x y).mp h with h | ⟨rfl, rfl⟩
    · simp only [joinRoots, (hroot x y).mpr (.rel _ _ h)]
    · simp [joinRoots]

theorem roots_eq_iff (calls : List (Call α)) (x y : α) :
    roots calls x = roots calls y ↔ Relation.EqvGen (Joined calls) x y := by
  induction calls using List.reverseRecOn generalizing x y with
  | nil =>
    constructor
    · rintro rfl
      exact .refl _
    · exact eq_of_eqvGen fun a b h => by simp [Joined] at h
  | append_singleton calls call ih =>
    have hroots : roots (calls ++ [call]) = joinRoots (roots calls) call := by
      simp [roots, List.foldl_append]
    rw [hroots]
    cases call with
    | find a =>
      have hsame : Joined (calls ++ [.find a]) = Joined calls := by
        funext x y
        simp [Joined]
      rw [hsame]
      exact ih x y
    | union a b =>
      refine joinRoots_union_iff ih (fun x y => ?_) x y
      simp [Joined]

theorem mem_sets {calls : List (Call α)} {c : List α} (hc : c ∈ sets calls) :
    ∃ r, ∀ a, a ∈ c ↔ Mentioned calls a ∧ roots calls a = r := by
  obtain ⟨r, -, rfl⟩ := List.mem_map.mp hc
  exact ⟨r, fun a => by simp [mem_items]⟩

theorem exists_set {calls : List (Call α)} {a : α} (ha : Mentioned calls a) :
    ∃ c ∈ sets calls, ∀ b, b ∈ c ↔ Mentioned calls b ∧ roots calls b = roots calls a := by
  refine ⟨_, List.mem_map_of_mem (List.mem_dedup.mpr (List.mem_map_of_mem (mem_items.mpr ha))), ?_⟩
  simp [mem_items]

/-- The sets by roots are those of a union-find. -/
theorem isUnionFind_sets : IsUnionFind (sets (α := α)) where
  nodup calls := by
    refine List.nodup_flatten.mpr ⟨fun c hc => ?_, ?_⟩
    · obtain ⟨r, -, rfl⟩ := List.mem_map.mp hc
      exact (List.nodup_dedup _).filter _
    · refine List.pairwise_map.mpr ((List.nodup_dedup _).imp fun {r r'} hne => ?_)
      intro a ha ha'
      simp only [List.mem_filter, decide_eq_true_eq] at ha ha'
      exact hne (ha.2.symm.trans ha'.2)
  mem_flatten calls a := by
    rw [List.mem_flatten]
    constructor
    · rintro ⟨c, hc, ha⟩
      obtain ⟨r, hr⟩ := mem_sets hc
      exact ((hr a).mp ha).1
    · intro ha
      obtain ⟨c, hc, hmem⟩ := exists_set ha
      exact ⟨c, hc, (hmem a).mpr ⟨ha, rfl⟩⟩
  together calls a b ha hb := by
    rw [← roots_eq_iff]
    constructor
    · rintro ⟨c, hc, hac, hbc⟩
      obtain ⟨r, hr⟩ := mem_sets hc
      exact ((hr a).mp hac).2.trans ((hr b).mp hbc).2.symm
    · intro h
      obtain ⟨c, hc, hmem⟩ := exists_set ha
      exact ⟨c, hc, (hmem a).mpr ⟨ha, rfl⟩, (hmem b).mpr ⟨hb, h.symm⟩⟩

end UnionFind
