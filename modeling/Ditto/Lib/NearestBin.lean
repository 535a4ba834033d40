-- The bin nearest to a value. Of two bins that are as near the smaller one
-- counts, and this is the one the first minimum of rising bins gives.
import Mathlib.Algebra.Order.Group.Abs
import Mathlib.Data.List.MinMax

variable {α : Type}

/-- The first minimum of a list is what the loop is left with that starts at the head and moves on
to each smaller item. -/
theorem List.argmin_cons_eq_foldl {β : Type} [LinearOrder β] (f : α → β) (a : α) (l : List α) :
    (a :: l).argmin f = some (l.foldl (fun best b => if f b < f best then b else best) a) := by
  induction l using List.reverseRecOn with
  | nil => rfl
  | append_singleton l b ih =>
    rw [← List.cons_append, List.argmin_concat, ih, List.foldl_append]
    simp only [List.foldl_cons, List.foldl_nil]
    split <;> rfl

variable [AddCommGroup α] [LinearOrder α]

/-- The first of the bins with the least distance to the value. -/
def nearest? (bins : List α) (k : α) : Option α := bins.argmin fun b => |k - b|

theorem nearest?_cons (b : α) (bins : List α) (k : α) : nearest? (b :: bins) k =
    some (bins.foldl (fun best b => if |k - b| < |k - best| then b else best) b) :=
  List.argmin_cons_eq_foldl _ b bins

theorem mem_of_nearest? {bins : List α} {k b : α} (h : nearest? bins k = some b) : b ∈ bins :=
  List.argmin_mem h

theorem exists_nearest? {bins : List α} (hne : bins ≠ []) (k : α) :
    ∃ b, nearest? bins k = some b := by
  apply Option.ne_none_iff_exists'.mp
  unfold nearest?
  rw [Ne, List.argmin_eq_none]
  exact hne

/-- The bin is nearest to the value, and below all others that are as near. -/
def NearestBin (bins : List α) (k b : α) : Prop :=
  b ∈ bins ∧ ∀ c ∈ bins, |k - b| < |k - c| ∨ |k - b| = |k - c| ∧ b ≤ c

instance (bins : List α) (k b : α) : Decidable (NearestBin bins k b) :=
  inferInstanceAs (Decidable (_ ∧ _))

namespace NearestBin

variable {bins : List α} {k b b' : α}

theorem unique (h : NearestBin bins k b) (h' : NearestBin bins k b') : b = b' := by
  rcases h.2 b' h'.1 with hlt | ⟨heq, hle⟩
  · rcases h'.2 b h.1 with hlt' | ⟨heq', -⟩
    · exact absurd hlt (lt_asymm hlt')
    · exact absurd hlt (by rw [heq']; exact lt_irrefl _)
  · rcases h'.2 b h.1 with hlt' | ⟨-, hle'⟩
    · exact absurd hlt' (by rw [heq]; exact lt_irrefl _)
    · exact le_antisymm hle hle'

/-- Of rising bins the first one with the least distance is the nearest one. -/
theorem of_nearest? (hrise : bins.Pairwise (· < ·)) (h : nearest? bins k = some b) :
    NearestBin bins k b := by
  unfold nearest? at h
  rw [← Option.mem_def, List.mem_argmin_iff] at h
  obtain ⟨hmem, hle, hfirst⟩ := h
  refine ⟨hmem, ?_⟩
  intro c hc
  rcases (hle c hc).lt_or_eq with hlt | heq
  · exact .inl hlt
  · refine .inr ⟨heq, ?_⟩
    have hidx := hfirst c hc heq.ge
    rcases hidx.lt_or_eq with hlt | hsame
    · have hpair := List.pairwise_iff_getElem.mp hrise _ _ (List.idxOf_lt_length_of_mem hmem)
        (List.idxOf_lt_length_of_mem hc) hlt
      rw [List.getElem_idxOf, List.getElem_idxOf] at hpair
      exact hpair.le
    · exact ((List.idxOf_inj hmem).mp hsame).le

end NearestBin
