-- Cuts of an interval. A list of bounds with values cuts `[lo, N)` into
-- consecutive pieces, and each number of the interval takes the value of
-- the first bound past it.
import Mathlib.Algebra.Order.Interval.Finset.Basic
import Mathlib.Data.Finset.Card
import Mathlib.Data.Nat.Periodic
import Mathlib.Order.Interval.Finset.Defs
import Mathlib.Data.Int.Interval
import Mathlib.Data.List.Count

namespace Cuts

variable {α β : Type}

/-- The value of the first bound past `r`. -/
def pick (cuts : List (ℤ × α)) (r : ℤ) : Option α :=
  (cuts.find? (fun c => r < c.1)).map Prod.snd

theorem pick_cons (b : ℤ) (a : α) (rest : List (ℤ × α)) (r : ℤ) :
    pick ((b, a) :: rest) r = if r < b then some a else pick rest r := by
  unfold pick
  rw [List.find?_cons]
  by_cases h : r < b
  · simp [h]
  · simp [h]

@[simp] theorem pick_cons_of_lt {b r : ℤ} (a : α) (rest : List (ℤ × α)) (h : r < b) :
    pick ((b, a) :: rest) r = some a := by rw [pick_cons, if_pos h]

@[simp] theorem pick_cons_of_le {b r : ℤ} (a : α) (rest : List (ℤ × α)) (h : b ≤ r) :
    pick ((b, a) :: rest) r = pick rest r := by rw [pick_cons, if_neg (by omega)]

variable {v : α}

theorem mem_of_pick {cuts : List (ℤ × α)} {r : ℤ} (h : pick cuts r = some v) :
    ∃ b, (b, v) ∈ cuts := by
  obtain ⟨⟨b, a⟩, hc, rfl⟩ := Option.map_eq_some_iff.mp h
  exact ⟨b, List.mem_of_find?_eq_some hc⟩

/-! ## Bounds that rise to the end of the interval -/

/-- The bounds are `lo` or more, rise strictly, and end at `N`. -/
inductive Tiles (N : ℤ) : ℤ → List (ℤ × α) → Prop
  | last {lo : ℤ} (a : α) (h : lo ≤ N) : Tiles N lo [(N, a)]
  | cons {lo b : ℤ} (a : α) {rest : List (ℤ × α)} (h : lo ≤ b) (hb : b < N)
      (ht : Tiles N (b + 1) rest) : Tiles N lo ((b, a) :: rest)

namespace Tiles

variable {N lo : ℤ} {cuts : List (ℤ × α)}

theorem mono {lo' : ℤ} (h : Tiles N lo cuts) (hl : lo' ≤ lo) : Tiles N lo' cuts := by
  cases h with
  | last a h => exact .last a (by omega)
  | cons a h hb ht => exact .cons a (by omega) hb ht

/-- The first bound alone decides where the bounds may start. -/
theorem raise {b k : ℤ} {a : α} {rest : List (ℤ × α)} (h : Tiles N lo ((b, a) :: rest))
    (hk : k ≤ b) : Tiles N k ((b, a) :: rest) := by
  cases h with
  | last a h => exact .last a hk
  | cons a h hb ht => exact .cons a hk hb ht

theorem tail {b : ℤ} {a : α} {rest : List (ℤ × α)} (h : Tiles N lo ((b, a) :: rest))
    (hb : b < N) : Tiles N (b + 1) rest := by
  cases h with
  | last a h => exact absurd hb (lt_irrefl _)
  | cons a h hb ht => exact ht

theorem exists_cons (h : Tiles N lo cuts) :
    ∃ b a rest, cuts = (b, a) :: rest ∧ lo ≤ b ∧ b ≤ N := by
  cases h with
  | last a h => exact ⟨N, a, [], rfl, h, le_refl _⟩
  | @cons _ b a rest h hb ht => exact ⟨b, a, rest, rfl, h, le_of_lt hb⟩

theorem pick_isSome (h : Tiles N lo cuts) {r : ℤ} (hr : r < N) : ∃ a, pick cuts r = some a := by
  induction h with
  | last a h => exact ⟨a, pick_cons_of_lt _ _ hr⟩
  | @cons lo b a rest h hb ht ih =>
    by_cases hrb : r < b
    · exact ⟨a, pick_cons_of_lt _ _ hrb⟩
    · rw [pick_cons_of_le _ _ (by omega)]
      exact ih

theorem lt_of_pick (h : Tiles N lo cuts) {r : ℤ} (hp : pick cuts r = some v) : r < N := by
  induction h with
  | last a h =>
    by_contra hr
    rw [pick_cons_of_le _ _ (not_lt.mp hr)] at hp
    cases hp
  | @cons lo b a rest h hb ht ih =>
    by_cases hrb : r < b
    · omega
    · rw [pick_cons_of_le _ _ (not_lt.mp hrb)] at hp
      exact ih hp

theorem le_of_mem (h : Tiles N lo cuts) {c : ℤ × α} (hc : c ∈ cuts) : lo ≤ c.1 := by
  induction h with
  | last a h =>
    rw [List.mem_singleton] at hc
    rw [hc]
    exact h
  | @cons lo b a rest h hb ht ih =>
    rcases List.mem_cons.mp hc with rfl | hc
    · exact h
    · have := ih hc
      omega

theorem nodup (h : Tiles N lo cuts) : (cuts.map Prod.fst).Nodup := by
  induction h with
  | last a h => exact List.nodup_singleton _
  | @cons lo b a rest h hb ht ih =>
    rw [List.map_cons, List.nodup_cons]
    refine ⟨?_, ih⟩
    intro hmem
    obtain ⟨c, hc, rfl⟩ := List.mem_map.mp hmem
    have := ht.le_of_mem hc
    omega

theorem head_bounds {b : ℤ} {a : α} {rest : List (ℤ × α)} (h : Tiles N lo ((b, a) :: rest)) :
    lo ≤ b ∧ b ≤ N := by
  cases h with
  | last a h => exact ⟨h, le_refl _⟩
  | cons a h hb ht => exact ⟨h, le_of_lt hb⟩

end Tiles

/-! ## Two lists of bounds merged into one -/

/-- The bounds of both lists in order, each with the values that end there or past it. -/
def merge (N : ℤ) : List (ℤ × α) → List (ℤ × β) → List (ℤ × α × β)
  | (b, x) :: l, (c, y) :: m =>
    if b < c then (b, x, y) :: merge N l ((c, y) :: m)
    else if c < N then (c, x, y) :: merge N ((b, x) :: l) m
    else [(c, x, y)]
  | _, _ => []
termination_by l m => l.length + m.length

/-- The two lists share no bound below `N`. -/
def Apart (N : ℤ) (l : List (ℤ × α)) (m : List (ℤ × β)) : Prop :=
  ∀ c ∈ l, ∀ d ∈ m, c.1 < N → c.1 ≠ d.1

variable {N : ℤ} {m : List (ℤ × β)}

theorem Apart.tail_left {c : ℤ × α} {l : List (ℤ × α)} (h : Apart N (c :: l) m) : Apart N l m :=
  fun x hx => h x (List.mem_cons_of_mem _ hx)

theorem Apart.tail_right {d : ℤ × β} {l : List (ℤ × α)} (h : Apart N l (d :: m)) : Apart N l m :=
  fun x hx y hy => h x hx y (List.mem_cons_of_mem _ hy)

/-- The second list has the smaller bound when the first has not. -/
theorem Apart.lt_of_not_lt {b c : ℤ} {x : α} {y : β} {l : List (ℤ × α)}
    (h : Apart N ((b, x) :: l) ((c, y) :: m)) (hbc : ¬ b < c) (hc : c < N) : c < b := by
  by_cases hb : b < N
  · have hne := h (b, x) List.mem_cons_self (c, y) List.mem_cons_self hb
    simp only at hne
    omega
  · omega

namespace Tiles

variable {N lo : ℤ} {l : List (ℤ × α)} {m : List (ℤ × β)}

theorem merge (hl : Tiles N lo l) (hm : Tiles N lo m) (h : Apart N l m) :
    Tiles N lo (Cuts.merge N l m) := by
  fun_induction Cuts.merge N l m generalizing lo with
  | case1 b x l c y m hbc ih =>
    have hb := hl.head_bounds
    have hc := hm.head_bounds
    have hbN : b < N := by omega
    exact .cons _ hb.1 hbN (ih (hl.tail hbN) (hm.raise (by omega)) h.tail_left)
  | case2 b x l c y m hbc hcN ih =>
    have hlt := h.lt_of_not_lt hbc hcN
    exact .cons _ hm.head_bounds.1 hcN (ih (hl.raise (by omega)) (hm.tail hcN) h.tail_right)
  | case3 b x l c y m hbc hcN =>
    obtain ⟨hlo, hle⟩ := hm.head_bounds
    obtain rfl : c = N := by omega
    exact .last _ hlo
  | case4 l m hnil =>
    obtain ⟨b, x, l', rfl, _⟩ := hl.exists_cons
    obtain ⟨c, y, m', rfl, _⟩ := hm.exists_cons
    exact absurd rfl (hnil _ _ _ _ _ _ rfl)

/-- The merge pairs the values of both lists at each number. -/
theorem pick_merge (hl : Tiles N lo l) (hm : Tiles N lo m) (h : Apart N l m) {r : ℤ} {x : α} {y : β}
    (hx : pick l r = some x) (hy : pick m r = some y) : pick (Cuts.merge N l m) r = some (x, y) := by
  fun_induction Cuts.merge N l m generalizing lo with
  | case1 b x' l c y' m hbc ih =>
    have hc := hm.head_bounds
    have hbN : b < N := by omega
    by_cases hr : r < b
    · rw [pick_cons_of_lt _ _ hr] at hx ⊢
      rw [pick_cons_of_lt _ _ (by omega)] at hy
      cases hx
      cases hy
      rfl
    · rw [pick_cons_of_le _ _ (by omega)] at hx ⊢
      exact ih (hl.tail hbN) (hm.raise (by omega)) h.tail_left hx hy
  | case2 b x' l c y' m hbc hcN ih =>
    have hlt := h.lt_of_not_lt hbc hcN
    by_cases hr : r < c
    · rw [pick_cons_of_lt _ _ hr] at hy ⊢
      rw [pick_cons_of_lt _ _ (by omega)] at hx
      cases hx
      cases hy
      rfl
    · rw [pick_cons_of_le _ _ (by omega)] at hy ⊢
      exact ih (hl.raise (by omega)) (hm.tail hcN) h.tail_right hx hy
  | case3 b x' l c y' m hbc hcN =>
    -- Both lists are at their last bound `N`.
    have hb := hl.head_bounds
    have hr := hm.lt_of_pick hy
    rw [pick_cons_of_lt _ _ (by omega)] at hx hy ⊢
    cases hx
    cases hy
    rfl
  | case4 l m hnil =>
    obtain ⟨b, x', l', rfl, _⟩ := hl.exists_cons
    obtain ⟨c, y', m', rfl, _⟩ := hm.exists_cons
    exact absurd rfl (hnil _ _ _ _ _ _ rfl)

end Tiles

/-! ## The pieces between the bounds -/

/-- Each bound with the bound before it: the half-open pieces from `lower` on. -/
def blocks (lower : ℤ) : List (ℤ × α) → List (ℤ × ℤ × α)
  | [] => []
  | (b, a) :: rest => (lower, b, a) :: blocks b rest

/-- `r` lies in the piece. -/
def inBlock (r : ℤ) (t : ℤ × ℤ × α) : Bool := decide (t.1 ≤ r) && decide (r < t.2.1)

@[simp] theorem inBlock_eq_true (r : ℤ) (t : ℤ × ℤ × α) :
    inBlock r t = true ↔ t.1 ≤ r ∧ r < t.2.1 := by simp [inBlock]

theorem inBlock_eq_false {r : ℤ} {t : ℤ × ℤ × α} (h : ¬ (t.1 ≤ r ∧ r < t.2.1)) :
    inBlock r t = false := by
  rw [← inBlock_eq_true] at h
  exact Bool.eq_false_iff.mpr h

namespace Tiles

variable {N lo lower r : ℤ} {cuts : List (ℤ × α)}

/-- The pieces start at `lower` or later. -/
theorem le_of_mem_blocks (h : Tiles N lo cuts) (hl : lower ≤ lo) {t : ℤ × ℤ × α}
    (ht : t ∈ blocks lower cuts) : lower ≤ t.1 := by
  induction h generalizing lower with
  | last a h =>
    simp only [blocks, List.mem_singleton] at ht
    rw [ht]
  | @cons lo b a rest h hb _ ih =>
    rcases List.mem_cons.mp ht with rfl | ht
    · exact le_refl _
    · have := ih (by omega) ht
      omega

/-- The pieces end at `N` or earlier. -/
theorem le_of_mem_blocks_end (h : Tiles N lo cuts) {t : ℤ × ℤ × α} (ht : t ∈ blocks lower cuts) :
    t.2.1 ≤ N := by
  induction h generalizing lower with
  | last a h =>
    simp only [blocks, List.mem_singleton] at ht
    rw [ht]
  | @cons lo b a rest h hb _ ih =>
    rcases List.mem_cons.mp ht with rfl | ht
    · exact le_of_lt hb
    · exact ih ht

/-- Every number of the interval lies in exactly one piece. -/
theorem countP_blocks (h : Tiles N lo cuts) (hl : lower ≤ lo) (hr : lower ≤ r) (hrN : r < N) :
    (blocks lower cuts).countP (inBlock r) = 1 := by
  induction h generalizing lower with
  | last a h => simp [blocks, inBlock, hr, hrN]
  | @cons lo b a rest h hb ht ih =>
    rw [blocks, List.countP_cons]
    by_cases hrb : r < b
    · have hzero : (blocks b rest).countP (inBlock r) = 0 := by
        rw [List.countP_eq_zero]
        intro t hmem
        have := ht.le_of_mem_blocks (by omega) hmem
        rw [inBlock_eq_true]
        omega
      simp [hzero, inBlock, hr, hrb]
    · rw [ih (by omega) (by omega)]
      have hin : inBlock r (lower, b, a) = false := inBlock_eq_false (by simp only; omega)
      simp [hin]

/-- The piece of `r` holds the value of the first bound past `r`. -/
theorem pick_of_mem_blocks (h : Tiles N lo cuts) (hl : lower ≤ lo) {t : ℤ × ℤ × α}
    (ht : t ∈ blocks lower cuts) (hin : inBlock r t = true) : pick cuts r = some t.2.2 := by
  rw [inBlock_eq_true] at hin
  induction h generalizing lower with
  | last a h =>
    simp only [blocks, List.mem_singleton] at ht
    subst ht
    exact pick_cons_of_lt _ _ hin.2
  | @cons lo b a rest h hb htl ih =>
    rcases List.mem_cons.mp ht with rfl | ht
    · exact pick_cons_of_lt _ _ hin.2
    · have := htl.le_of_mem_blocks (by omega) ht
      rw [pick_cons_of_le _ _ (by omega)]
      exact ih (by omega) ht

end Tiles

/-! ## How many numbers take a value -/

variable [DecidableEq α]

/-- The numbers of `[lo, N)`. -/
def numbers (lo N : ℤ) : Finset ℤ :=
  (Finset.range (N - lo).toNat).image (fun i : ℕ => lo + i)

@[simp] theorem mem_numbers {lo r : ℤ} : r ∈ numbers lo N ↔ lo ≤ r ∧ r < N := by
  unfold numbers
  simp only [Finset.mem_image, Finset.mem_range]
  constructor
  · rintro ⟨i, hi, rfl⟩
    omega
  · rintro ⟨hlo, hN⟩
    exact ⟨(r - lo).toNat, by omega, by omega⟩

@[simp] theorem card_numbers (lo N : ℤ) : (numbers lo N).card = (N - lo).toNat := by
  unfold numbers
  rw [Finset.card_image_of_injective, Finset.card_range]
  intro i j hij
  simpa using hij

/-- The numbers of `[lo, N)` that take the value `v`. -/
def tally (cuts : List (ℤ × α)) (lo N : ℤ) (v : α) : ℕ :=
  ((numbers lo N).filter (fun r => pick cuts r = some v)).card

/-- The numbers below the first bound take its value, and the others take the values of
the bounds after it. -/
theorem tally_cons {lo b : ℤ} (a v : α) (rest : List (ℤ × α)) (h : lo ≤ b) (hb : b ≤ N) :
    (tally ((b, a) :: rest) lo N v : ℤ) = (if a = v then b - lo else 0) + tally rest b N v := by
  unfold tally
  have hsplit : numbers lo N = numbers lo b ∪ numbers b N := by
    ext r
    simp only [mem_numbers, Finset.mem_union]
    omega
  have hdis : Disjoint (numbers lo b) (numbers b N) := by
    rw [Finset.disjoint_left]
    simp only [mem_numbers]
    omega
  rw [hsplit, Finset.filter_union, Finset.card_union_of_disjoint (Finset.disjoint_filter_filter hdis)]
  have hlow : (numbers lo b).filter (fun r => pick ((b, a) :: rest) r = some v) =
      (numbers lo b).filter (fun _ => a = v) := by
    apply Finset.filter_congr
    intro r hr
    rw [pick_cons_of_lt _ _ (mem_numbers.mp hr).2, Option.some_inj]
  have hhigh : (numbers b N).filter (fun r => pick ((b, a) :: rest) r = some v) =
      (numbers b N).filter (fun r => pick rest r = some v) := by
    apply Finset.filter_congr
    intro r hr
    rw [pick_cons_of_le _ _ (mem_numbers.mp hr).1]
  rw [hlow, hhigh, Finset.filter_const]
  split
  · push_cast
    rw [card_numbers, Int.toNat_of_nonneg (by omega)]
  · simp

/-- No number takes a value that no bound has. -/
theorem tally_eq_zero {cuts : List (ℤ × α)} (lo N : ℤ) (h : ∀ c ∈ cuts, c.2 ≠ v) :
    tally cuts lo N v = 0 := by
  unfold tally
  rw [Finset.card_eq_zero, Finset.filter_eq_empty_iff]
  intro r _ hp
  obtain ⟨b, hb⟩ := mem_of_pick hp
  exact h (b, v) hb rfl

/-- The first value gets the numbers up to its bound when no later bound has it. -/
theorem tally_cons_self {lo b : ℤ} {a : α} {rest : List (ℤ × α)} (h : lo ≤ b) (hb : b ≤ N)
    (hrest : ∀ c ∈ rest, c.2 ≠ a) : (tally ((b, a) :: rest) lo N a : ℤ) = b - lo := by
  rw [tally_cons a a rest h hb, if_pos rfl, tally_eq_zero b N hrest]
  simp

/-- Any other value gets its numbers behind the first bound. -/
theorem tally_cons_of_ne {lo b : ℤ} {a : α} {rest : List (ℤ × α)} (h : lo ≤ b) (hb : b ≤ N)
    (hne : a ≠ v) : tally ((b, a) :: rest) lo N v = tally rest b N v := by
  have htally := tally_cons a v rest h hb
  rw [if_neg hne, zero_add] at htally
  exact_mod_cast htally

/-- A window of `n` consecutive numbers meets each remainder once. -/
theorem card_window (n first : ℕ) (p : ℕ → Prop) [DecidablePred p] :
    ((Finset.range n).filter (fun i => p ((first + i) % n))).card =
      ((Finset.range n).filter p).card := by
  have hper : Function.Periodic (fun x => p (x % n)) n := fun x => by simp
  have hshift : (Finset.range n).filter (fun i => p ((first + i) % n)) =
      (Finset.range n).filter ((fun x => p (x % n)) ∘ (first + ·)) := rfl
  have hwindow := Nat.filter_Ico_card_eq_of_periodic first n (fun x => p (x % n)) hper
  have himage : (Finset.Ico first (first + n)) = (Finset.range n).image (first + ·) := by
    rw [Finset.range_eq_Ico, Finset.image_add_left_Ico, Nat.add_zero]
  rw [himage, Finset.filter_image, Finset.card_image_of_injective _ (add_right_injective first),
    Nat.count_eq_card_filter_range] at hwindow
  rw [hshift]
  refine hwindow.trans ?_
  congr 1
  apply Finset.filter_congr
  intro x hx
  rw [Nat.mod_eq_of_lt (Finset.mem_range.mp hx)]

/-- The tally of `[0, n)`, counted over the natural numbers. -/
theorem card_range_pick (cuts : List (ℤ × α)) (n : ℕ) (v : α) :
    ((Finset.range n).filter (fun r : ℕ => pick cuts r = some v)).card = tally cuts 0 n v := by
  unfold tally
  have himage : numbers 0 n = (Finset.range n).image Nat.cast := by
    ext x
    simp only [mem_numbers, Finset.mem_image, Finset.mem_range]
    constructor
    · intro hx
      exact ⟨x.toNat, by omega, by omega⟩
    · rintro ⟨i, hi, rfl⟩
      omega
  rw [himage, Finset.filter_image, Finset.card_image_of_injective _ Nat.cast_injective]

end Cuts
