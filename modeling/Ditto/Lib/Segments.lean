-- Scatter-gather segments. One send takes bytes from a list of segments in
-- order, and stops when it has as many as it accepts.
import Mathlib.Algebra.GroupWithZero.Nat
import Mathlib.Data.List.Range

/-- The bytes at the addresses from `base`, `len` of them. -/
structure Segment where
  base : ℕ
  len : ℕ
deriving DecidableEq, Repr

namespace Segment

/-- The addresses of the segments, one after another. -/
def addrs (segs : List Segment) : List ℕ := segs.flatMap fun s => List.range' s.base s.len

def total (segs : List Segment) : ℕ := (segs.map len).sum

/-- The addresses that a send of `n` bytes reads. -/
def gather : ℕ → List Segment → List ℕ
  | _, [] => []
  | n, s :: rest => List.range' s.base (min n s.len) ++ gather (n - s.len) rest

theorem addrs_cons (s : Segment) (rest : List Segment) :
    addrs (s :: rest) = List.range' s.base s.len ++ addrs rest := rfl

@[simp] theorem length_addrs (segs : List Segment) : (addrs segs).length = total segs := by
  simp only [addrs, total, List.length_flatMap, List.length_range']

theorem take_range' (base len n : ℕ) :
    (List.range' base len).take n = List.range' base (min n len) := by
  apply List.ext_getElem
  · simp
  · intro i h1 h2
    simp

/-- A send reads the next bytes of the segments and no others. -/
theorem gather_eq_take (n : ℕ) (segs : List Segment) : gather n segs = (addrs segs).take n := by
  induction segs generalizing n with
  | nil => simp [gather, addrs]
  | cons s rest ih =>
    unfold gather
    rw [ih, addrs_cons, List.take_append, take_range', List.length_range']

end Segment
