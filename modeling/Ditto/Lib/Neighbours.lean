-- The pairs of neighbours in a list. A loop that stops one pair short goes
-- over the neighbours in the list without its last item. The changes of a
-- list are the pairs of different neighbours, fewer than the list has items.
import Mathlib.Data.List.Basic

namespace Neighbours

variable {α : Type}

def pairs : List α → List (α × α)
  | x :: y :: l => (x, y) :: pairs (y :: l)
  | _ => []

theorem length_pairs (l : List α) : (pairs l).length = l.length - 1 := by
  induction l with
  | nil => rfl
  | cons x l ih =>
    cases l with
    | nil => rfl
    | cons y l => simpa [pairs] using ih

theorem getElem?_pairs (l : List α) (i : ℕ) :
    (pairs l)[i]? = (l[i]?).bind fun x => (l[i + 1]?).map fun y => (x, y) := by
  induction l generalizing i with
  | nil => rfl
  | cons x l ih =>
    cases l with
    | nil => cases i <;> simp [pairs]
    | cons y l =>
      cases i with
      | zero => rfl
      | succ i => simpa [pairs] using ih i

theorem pairs_dropLast (l : List α) : pairs l.dropLast = (pairs l).dropLast := by
  induction l with
  | nil => rfl
  | cons x l ih =>
    rcases l with _ | ⟨y, _ | ⟨z, l⟩⟩
    · rfl
    · rfl
    · simpa [pairs] using ih

/-- The pairs are those of the list without its last item, and the last pair. -/
theorem pairs_eq_append (l : List α) :
    pairs l = pairs l.dropLast ++ (pairs l).getLast?.toList := by
  rw [pairs_dropLast]
  rcases hlast : (pairs l).getLast? with _ | p
  · rw [List.getLast?_eq_none_iff] at hlast
    rw [hlast]
    rfl
  · exact (List.dropLast_append_getLast? p hlast).symm

/-! ## Changes -/

variable [DecidableEq α]

/-- How often an item is followed by another one. -/
def changes (l : List α) : ℕ := (pairs l).countP fun p => p.1 ≠ p.2

theorem changes_lt {l : List α} (h : l ≠ []) : changes l < l.length := by
  have hle : changes l ≤ (pairs l).length := List.countP_le_length
  have hpos := List.length_pos_iff.mpr h
  rw [length_pairs] at hle
  omega

end Neighbours
