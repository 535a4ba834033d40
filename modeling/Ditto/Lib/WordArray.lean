-- Arrays as functions. A loop stores a list in a run of cells, and leaves the
-- cells outside the run alone. A run that holds a permutation of its own
-- indices maps the run onto itself, and a walk along its links goes through
-- all of it or stays in a closed part.
import Mathlib.Data.List.Nodup
import Mathlib.Data.List.Perm.Basic
import Mathlib.Data.List.Range
import Mathlib.Data.Nat.Find
import Mathlib.Data.Set.Finite.Basic
import Mathlib.Data.Set.Function
import Mathlib.Logic.Function.Basic

namespace WordArray

variable {α : Type}

/-- The loop that stores a list from cell `j` on. -/
def store (mem : ℕ → α) : ℕ → List α → ℕ → α
  | _, [] => mem
  | j, x :: xs => store (Function.update mem j x) (j + 1) xs

theorem store_of_lt (mem : ℕ → α) {j k : ℕ} (xs : List α) (h : k < j) :
    store mem j xs k = mem k := by
  induction xs generalizing mem j with
  | nil => rfl
  | cons x xs ih =>
    unfold store
    rw [ih _ (by omega), Function.update_of_ne (by omega)]

theorem store_add (mem : ℕ → α) (j : ℕ) (xs : List α) {i : ℕ} (h : i < xs.length) :
    store mem j xs (j + i) = xs[i] := by
  induction xs generalizing mem j i with
  | nil => cases h
  | cons x xs ih =>
    unfold store
    cases i with
    | zero => rw [store_of_lt _ _ (by omega), Nat.add_zero, Function.update_self, List.getElem_cons_zero]
    | succ i =>
      have hi : i < xs.length := by simpa using h
      have hrest := ih (Function.update mem j x) (j + 1) hi
      rw [List.getElem_cons_succ, ← hrest, Nat.add_assoc, Nat.add_comm 1 i]

/-- A run that holds its own indices in some order maps onto itself. -/
theorem store_bijOn (mem : ℕ → ℕ) {j n : ℕ} {xs : List ℕ} (h : xs.Perm (List.range' j n)) :
    Set.BijOn (store mem j xs) {k | j ≤ k ∧ k < j + n} {k | j ≤ k ∧ k < j + n} := by
  have hlen : xs.length = n := by rw [h.length_eq, List.length_range']
  have hnodup : xs.Nodup := h.nodup_iff.mpr List.nodup_range'
  have hmem : ∀ x, x ∈ xs ↔ j ≤ x ∧ x < j + n := by
    intro x
    rw [h.mem_iff, List.mem_range'_1]
  have hget : ∀ k, (hk : j ≤ k ∧ k < j + n) →
      store mem j xs k = xs[k - j] := by
    intro k hk
    have := store_add mem j xs (by omega : k - j < xs.length)
    rwa [Nat.add_sub_cancel' hk.1] at this
  refine ⟨?_, ?_, ?_⟩
  · intro k hk
    rw [hget k hk]
    exact (hmem _).mp (List.getElem_mem _)
  · intro k hk k' hk' heq
    rw [hget k hk, hget k' hk'] at heq
    have := (List.Nodup.getElem_inj_iff hnodup).mp heq
    have h1 := hk.1
    have h2 := hk'.1
    omega
  · intro x hx
    obtain ⟨i, hi, rfl⟩ := List.getElem_of_mem ((hmem x).mpr hx)
    exact ⟨j + i, ⟨Nat.le_add_right _ _, by omega⟩, store_add mem j xs hi⟩

/-! ## Walks along the links -/

variable {f : α → α} {S A : Set α} {a : α}

/-- The walk from `a` comes to `b` before it is back at `a`. -/
def ReachesFirst (f : α → α) (a b : α) : Prop :=
  ∃ n, f^[n] a = b ∧ ∀ m, 0 < m → m ≤ n → f^[m] a ≠ a

/-- No part of the set but the whole of it is closed under the links. -/
def Unbroken (f : α → α) (S : Set α) : Prop :=
  ∀ A ⊆ S, A.Nonempty → Set.MapsTo f A A → S ⊆ A

/-- A walk that ever comes to a point also does so before it is back at its start. -/
theorem reachesFirst_of_iterate {b : α} (h : ∃ n, f^[n] a = b) : ReachesFirst f a b := by
  classical
  refine ⟨Nat.find h, Nat.find_spec h, ?_⟩
  intro m hpos hle hback
  -- A turn back to the start could be left out.
  have hshort : f^[Nat.find h - m] a = b := by
    have hfound := Nat.find_spec h
    rwa [← Nat.sub_add_cancel hle, Function.iterate_add_apply, hback] at hfound
  exact Nat.find_min h (by omega) hshort

/-- The walk through a closed part of a finite set cannot have come in from outside. -/
theorem mem_of_iterate_mem (hfin : S.Finite) (hbij : Set.BijOn f S S) (hA : A ⊆ S)
    (hmaps : Set.MapsTo f A A) (ha : a ∈ S) {n : ℕ} (h : f^[n] a ∈ A) : a ∈ A := by
  induction n with
  | zero => exact h
  | succ n ih =>
    apply ih
    have hsurj : Set.SurjOn f A A :=
      (((hfin.subset hA).injOn_iff_bijOn_of_mapsTo hmaps).mp (hbij.injOn.mono hA)).surjOn
    rw [Function.iterate_succ_apply'] at h
    obtain ⟨x, hx, hxa⟩ := hsurj h
    have hn : f^[n] a ∈ S := hbij.mapsTo.iterate n ha
    rwa [← hbij.injOn (hA hx) hn hxa]

/-- The links of a finite set lead from a point through the whole set just if no proper part
of the set is closed. -/
theorem forall_reachesFirst_iff (hfin : S.Finite) (hbij : Set.BijOn f S S) (ha : a ∈ S) :
    (∀ b ∈ S, ReachesFirst f a b) ↔ Unbroken f S := by
  constructor
  · rintro h A hA ⟨c, hc⟩ hmaps b hb
    obtain ⟨n, rfl, -⟩ := h c (hA hc)
    obtain ⟨m, rfl, -⟩ := h b hb
    exact hmaps.iterate m (mem_of_iterate_mem hfin hbij hA hmaps ha hc)
  · intro h b hb
    apply reachesFirst_of_iterate
    -- The points of the walk are a closed part.
    refine h {b | ∃ n, f^[n] a = b} ?_ ⟨a, 0, rfl⟩ ?_ hb
    · rintro _ ⟨n, rfl⟩
      exact hbij.mapsTo.iterate n ha
    · rintro _ ⟨n, rfl⟩
      exact ⟨n + 1, Function.iterate_succ_apply' f n a⟩

end WordArray
