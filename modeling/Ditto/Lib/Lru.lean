-- Caches that drop the least recently used line. The lines of a set are the
-- most recent ones of its class, so they follow from one list of all lines in
-- the order of their last use. A cache with finer classes and longer sets hits
-- whenever a coarser and shorter one does.
import Mathlib.Data.List.Basic

namespace Lru

variable {α κ : Type} [DecidableEq α] [DecidableEq κ]

/-- The recency list after a use of `b`. -/
def touch (r : List α) (b : α) : List α := b :: r.erase b

/-- A set of `n` lines with the recency list `r`. The lines that are not in use hold `z`. -/
def pad (z : α) (n : ℕ) (r : List α) : List α := (r ++ List.replicate n z).take n

/-- What a use of `b` does to a set: a hit moves the line to the front, and a miss drops the
last line. -/
def use (set : List α) (b : α) : List α := if b ∈ set then b :: set.erase b else b :: set.dropLast

/-- A use of `b` hits in a cache with sets of `n` lines and the classes `cls`. -/
def Hits (cls : α → κ) (n : ℕ) (r : List α) (b : α) : Prop :=
  b ∈ (r.filter fun x => cls x = cls b).take n

omit [DecidableEq α] in
@[simp] theorem length_pad (z : α) (n : ℕ) (r : List α) : (pad z n r).length = n := by
  simp [pad]

omit [DecidableEq α] in
theorem mem_pad {z b : α} (hb : b ≠ z) {n : ℕ} {r : List α} : b ∈ pad z n r ↔ b ∈ r.take n := by
  unfold pad
  rw [List.take_append, List.mem_append, List.take_replicate]
  simp [List.mem_replicate, hb]

theorem erase_take {b : α} {n : ℕ} {l : List α} (h : b ∈ l.take n) :
    (l.take n).erase b = (l.erase b).take (n - 1) := by
  induction l generalizing n with
  | nil => simp
  | cons x l ih =>
    cases n with
    | zero => simp at h
    | succ n =>
      rw [List.take_succ_cons] at h ⊢
      by_cases hx : x = b
      · simp [hx]
      · have hl : b ∈ l.take n := by simpa [Ne.symm hx] using h
        have hn : n ≠ 0 := by
          rintro rfl
          simp at hl
        rw [List.erase_cons_tail (by simpa using hx), List.erase_cons_tail (by simpa using hx), ih hl]
        obtain ⟨m, rfl⟩ := Nat.exists_eq_succ_of_ne_zero hn
        rfl

theorem take_erase {b : α} {n : ℕ} {l : List α} (h : b ∉ l.take n) :
    (l.erase b).take n = l.take n := by
  induction l generalizing n with
  | nil => rfl
  | cons x l ih =>
    cases n with
    | zero => simp
    | succ n =>
      rw [List.take_succ_cons, List.mem_cons, not_or] at h
      rw [List.erase_cons_tail (by simpa using Ne.symm h.1), List.take_succ_cons,
        List.take_succ_cons, ih h.2]

/-- The first line with `b` is the one that a use moves. -/
theorem erase_eq_eraseIdx {b : α} {k : ℕ} {l : List α} (hk : l[k]? = some b)
    (hfirst : ∀ m < k, l[m]? ≠ some b) : l.erase b = l.eraseIdx k := by
  induction l generalizing k with
  | nil => simp at hk
  | cons x l ih =>
    cases k with
    | zero =>
      obtain rfl : x = b := by simpa using hk
      rw [List.erase_cons_head, List.eraseIdx_cons_zero]
    | succ k =>
      have hx : x ≠ b := fun hx => hfirst 0 (Nat.succ_pos k) (by simp [hx])
      rw [List.erase_cons_tail (by simpa using hx), List.eraseIdx_cons_succ,
        ih hk fun m hm => hfirst (m + 1) (Nat.succ_lt_succ hm)]

/-- A set with at least one line follows the recency list of its class. -/
theorem use_pad {z b : α} (hb : b ≠ z) {n : ℕ} (hn : 0 < n) (r : List α) :
    use (pad z n r) b = pad z n (touch r b) := by
  have hpad : pad z n (touch r b) = b :: (r.erase b ++ List.replicate n z).take (n - 1) := by
    cases n with
    | zero => cases hn
    | succ m => rfl
  unfold use
  rw [hpad]
  split
  · rename_i hmem
    have hr : b ∈ r := List.mem_of_mem_take ((mem_pad hb).mp hmem)
    rw [pad, erase_take hmem, List.erase_append_left _ hr]
  · rename_i hmem
    have hlast : (pad z n r).dropLast = (r ++ List.replicate n z).take (n - 1) := by
      rw [List.dropLast_eq_take, length_pad, pad, List.take_take, Nat.min_eq_left (Nat.sub_le n 1)]
    have htake : b ∉ (r ++ List.replicate n z).take (n - 1) := by
      rw [← hlast]
      exact fun h => hmem (List.dropLast_subset _ h)
    by_cases hr : b ∈ r
    · rw [hlast, ← List.erase_append_left _ hr, take_erase htake]
    · rw [hlast, List.erase_of_not_mem hr]

/-- A use changes the recency list of its own class only. -/
theorem filter_touch (cls : α → κ) (r : List α) (b : α) (k : κ) :
    (touch r b).filter (fun x => cls x = k) =
      if cls b = k then touch (r.filter fun x => cls x = k) b else r.filter fun x => cls x = k := by
  unfold touch
  rw [List.filter_cons]
  split
  · rename_i hk
    have hk' : cls b = k := by simpa using hk
    rw [if_pos hk', ← List.erase_filter]
  · rename_i hk
    have hk' : cls b ≠ k := by simpa using hk
    rw [if_neg hk', ← List.erase_filter, List.erase_of_not_mem]
    simp [hk']

omit [DecidableEq α] in
theorem filter_take_run (p : α → Bool) (n : ℕ) (l : List α) :
    (l.take n).filter p <+: (l.filter p).take n := by
  rw [List.prefix_take_iff]
  refine ⟨(List.take_prefix n l).filter p, ?_⟩
  exact Nat.le_trans (List.length_filter_le _ _) (List.length_take_le _ _)

omit [DecidableEq α] in
/-- Finer classes and longer sets keep every hit. -/
theorem Hits.mono {κ' : Type} [DecidableEq κ'] {cls : α → κ} {cls' : α → κ'} {n n' : ℕ}
    (hcls : ∀ x y, cls' x = cls' y → cls x = cls y) (hn : n ≤ n') {r : List α} {b : α}
    (h : Hits cls n r b) : Hits cls' n' r b := by
  have hfilter : (r.filter fun x => cls x = cls b).filter (fun x => cls' x = cls' b) =
      r.filter fun x => cls' x = cls' b := by
    rw [List.filter_filter]
    apply List.filter_congr
    intro x _
    by_cases hx : cls' x = cls' b
    · simp [hx, hcls x b hx]
    · simp [hx]
  have hmem : b ∈ ((r.filter fun x => cls x = cls b).take n).filter fun x => cls' x = cls' b :=
    List.mem_filter.mpr ⟨h, decide_eq_true rfl⟩
  have htake := (filter_take_run _ n _).subset hmem
  rw [hfilter] at htake
  exact (List.take_prefix_take_left hn).subset htake

end Lru
