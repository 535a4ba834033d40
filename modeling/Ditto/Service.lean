-- The memory for the pointer chase. `Service::Init` cuts an array into 23
-- segments and links the words of each segment in a random order. A network
-- thread starts with one pointer for each segment. The chase law: the links
-- lead through a whole segment just if the shuffle made one cycle of it.
import Ditto.Lib.WordArray
import Ditto.ShuffleBlocks
import Ditto.WorkingSet

open WordArray
open ditto.assembly_generator (Shuffle init_offsets)

namespace ditto.service

/-! ## The array -/

def cache_init_size : ℕ := 64

def cache_max_size : ℕ := 256 * 1024 * 1024

/-- The words of `shared_pointer_chasing_mem_data_`. -/
def num_words : ℕ := cache_max_size / 8

/-- The end of segment `i`. -/
def segment_end (i : ℕ) : ℕ := (cache_init_size <<< i) / 8

/-- The loop of `Init`, from segment `i` on. Each word holds the address of a word, and here
the index of that word. -/
def init_loop (shuffle : ℕ → Shuffle ℕ) : ℕ → ℕ → ℕ → (ℕ → ℕ) → ℕ → ℕ
  | 0, _, _, mem => mem
  | n + 1, i, first, mem =>
    let x := List.range' first (segment_end i - first)
    init_loop shuffle n (i + 1) (segment_end i) (store mem first ((shuffle i).run x))

def Init (shuffle : ℕ → Shuffle ℕ) (mem : ℕ → ℕ) : ℕ → ℕ := init_loop shuffle 23 0 0 mem

/-- The bounds of the segments that the loop goes through. -/
def segment_loop : ℕ → ℕ → ℕ → List (ℕ × ℕ)
  | 0, _, _ => []
  | n + 1, i, first => (first, segment_end i) :: segment_loop n (i + 1) (segment_end i)

def segments : List (ℕ × ℕ) := segment_loop 23 0 0

/-- The pointers of a thread at its start, as indices of words. -/
def init_pointers : List ℕ := (init_offsets 23 0 0).map (· / 8)

/-- The word is in segment `i`. -/
def InSegment (i j : ℕ) : Prop := ∃ s, segments[i]? = some s ∧ s.1 ≤ j ∧ j < s.2

/-! ## The segments -/

theorem segment_end_eq (i : ℕ) : segment_end i = 8 * 2 ^ i := by
  unfold segment_end cache_init_size
  rw [Nat.shiftLeft_eq]
  omega

theorem segment_end_lt (i : ℕ) : segment_end i < segment_end (i + 1) := by
  have hpos := Nat.two_pow_pos i
  rw [segment_end_eq, segment_end_eq, Nat.pow_succ]
  omega

/-- Every word from `first` to the end of the last segment is in one segment. -/
theorem exists_segment {n i first j : ℕ} (hle : first ≤ j) (hlt : j < segment_end (i + n)) :
    ∃ (k : ℕ) (s : ℕ × ℕ), (segment_loop (n + 1) i first)[k]? = some s ∧ s.1 ≤ j ∧ j < s.2 := by
  induction n generalizing i first with
  | zero => exact ⟨0, _, rfl, hle, hlt⟩
  | succ n ih =>
    by_cases hj : j < segment_end i
    · exact ⟨0, _, rfl, hle, hj⟩
    · rw [← Nat.add_assoc, Nat.add_right_comm] at hlt
      obtain ⟨k, s, hs, hbounds⟩ := ih (Nat.not_lt.mp hj) hlt
      exact ⟨k + 1, s, hs, hbounds⟩

theorem le_of_mem_segments {n i first k : ℕ} {s : ℕ × ℕ} (hfirst : first ≤ segment_end i)
    (h : (segment_loop n i first)[k]? = some s) : first ≤ s.1 ∧ s.1 ≤ s.2 := by
  induction n generalizing i first k with
  | zero => simp [segment_loop] at h
  | succ n ih =>
    cases k with
    | zero =>
      cases h
      exact ⟨le_refl _, hfirst⟩
    | succ k =>
      have hnext := ih (le_of_lt (segment_end_lt i)) h
      omega

/-- A word is in one segment at most. -/
theorem segment_unique {n i first j k k' : ℕ} {s s' : ℕ × ℕ} (hfirst : first ≤ segment_end i)
    (h : (segment_loop n i first)[k]? = some s) (h' : (segment_loop n i first)[k']? = some s')
    (hj : s.1 ≤ j ∧ j < s.2) (hj' : s'.1 ≤ j ∧ j < s'.2) : k = k' := by
  induction n generalizing i first k k' with
  | zero => simp [segment_loop] at h
  | succ n ih =>
    have hnext := le_of_lt (segment_end_lt i)
    cases k with
    | zero =>
      cases h
      cases k' with
      | zero => rfl
      | succ k' =>
        have hlater := le_of_mem_segments hnext h'
        simp only at hj
        omega
    | succ k =>
      cases k' with
      | zero =>
        cases h'
        have hlater := le_of_mem_segments hnext h
        simp only at hj'
        omega
      | succ k' => rw [ih hnext h h']

theorem init_loop_of_lt (shuffle : ℕ → Shuffle ℕ) {n i first j : ℕ} (mem : ℕ → ℕ)
    (hfirst : first ≤ segment_end i) (h : j < first) :
    init_loop shuffle n i first mem j = mem j := by
  induction n generalizing i first mem with
  | zero => rfl
  | succ n ih =>
    unfold init_loop
    rw [ih _ (le_of_lt (segment_end_lt i)) (by omega), store_of_lt _ _ h]

/-- The links of a segment lead through the segment and nowhere else. -/
theorem init_loop_bijOn (shuffle : ℕ → Shuffle ℕ) {n i first k : ℕ} {s : ℕ × ℕ} (mem : ℕ → ℕ)
    (hfirst : first ≤ segment_end i) (h : (segment_loop n i first)[k]? = some s) :
    Set.BijOn (init_loop shuffle n i first mem) {j | s.1 ≤ j ∧ j < s.2} {j | s.1 ≤ j ∧ j < s.2} := by
  induction n generalizing i first k mem with
  | zero => simp [segment_loop] at h
  | succ n ih =>
    unfold init_loop
    cases k with
    | succ k => exact ih _ (le_of_lt (segment_end_lt i)) h
    | zero =>
      cases h
      have hbij := store_bijOn mem ((shuffle i).perm (List.range' first (segment_end i - first)))
      rw [Nat.add_sub_cancel' hfirst] at hbij
      refine hbij.congr ?_
      -- The later segments lie behind this one.
      intro j hj
      exact (init_loop_of_lt shuffle _ (le_of_lt (segment_end_lt i)) hj.2).symm

theorem bijOn_segment (shuffle : ℕ → Shuffle ℕ) (mem : ℕ → ℕ) (i : ℕ) :
    Set.BijOn (Init shuffle mem) {j | InSegment i j} {j | InSegment i j} := by
  cases hs : segments[i]? with
  | none => simp [InSegment, hs]
  | some s =>
    have hbij := init_loop_bijOn shuffle mem (Nat.zero_le _) hs
    simpa only [Init, InSegment, hs, Option.some.injEq, exists_eq_left'] using hbij

theorem InSegment.link {shuffle : ℕ → Shuffle ℕ} {mem : ℕ → ℕ} {i j : ℕ} (h : InSegment i j) :
    InSegment i (Init shuffle mem j) :=
  (bijOn_segment shuffle mem i).mapsTo h

/-- The loop of the threads finds the starts of the same segments. -/
theorem init_pointers_eq : init_pointers = segments.map Prod.fst := by decide +kernel

theorem inSegment_init {i j : ℕ} (h : init_pointers[i]? = some j) : InSegment i j := by
  rw [init_pointers_eq, List.getElem?_map] at h
  obtain ⟨s, hs, rfl⟩ := Option.map_eq_some_iff.mp h
  refine ⟨s, hs, le_refl _, ?_⟩
  have hpos : ∀ s ∈ segments, s.1 < s.2 := by decide +kernel
  exact hpos s (List.mem_of_getElem? hs)

theorem existsUnique_segment {j : ℕ} (h : j < num_words) : ∃! i, InSegment i j := by
  have hlt : j < segment_end (0 + 22) := by
    rw [segment_end_eq]
    exact h
  obtain ⟨i, s, hs, hj⟩ := exists_segment (Nat.zero_le j) hlt
  refine ⟨i, ⟨s, hs, hj⟩, ?_⟩
  rintro k ⟨t, ht, hk⟩
  exact segment_unique (Nat.zero_le _) ht hs hk hj

theorem InSegment.lt_num_words {i j : ℕ} (h : InSegment i j) : j < num_words := by
  obtain ⟨s, hs, hj⟩ := h
  have hle : ∀ s ∈ segments, s.2 ≤ num_words := by decide +kernel
  exact Nat.lt_of_lt_of_le hj.2 (hle s (List.mem_of_getElem? hs))

/-! ## The chase -/

/-- The shuffle of segment `i` puts word `w` at place `j`. -/
def Puts (shuffle : Shuffle ℕ) (i j w : ℕ) : Prop :=
  ∃ s, segments[i]? = some s ∧ s.1 ≤ j ∧
    (shuffle.run (List.range' s.1 (s.2 - s.1)))[j - s.1]? = some w

/-- The shuffle of segment `i` makes one cycle: only the whole segment gets its own words back. -/
def OneCycle (shuffle : Shuffle ℕ) (i : ℕ) : Prop :=
  ∀ A : Set ℕ, A.Nonempty → (∀ j ∈ A, InSegment i j) →
    (∀ j ∈ A, ∀ w, Puts shuffle i j w → w ∈ A) → ∀ j, InSegment i j → j ∈ A

theorem init_loop_getElem? (shuffle : ℕ → Shuffle ℕ) {n i first k j : ℕ} {s : ℕ × ℕ}
    (mem : ℕ → ℕ) (hfirst : first ≤ segment_end i) (h : (segment_loop n i first)[k]? = some s)
    (hj : s.1 ≤ j ∧ j < s.2) :
    ((shuffle (i + k)).run (List.range' s.1 (s.2 - s.1)))[j - s.1]? =
      some (init_loop shuffle n i first mem j) := by
  induction n generalizing i first k mem with
  | zero => simp [segment_loop] at h
  | succ n ih =>
    have hnext := le_of_lt (segment_end_lt i)
    unfold init_loop
    cases k with
    | succ k =>
      have hlater := ih (store mem first ((shuffle i).run (List.range' first (segment_end i - first))))
        hnext h
      rwa [Nat.add_right_comm] at hlater
    | zero =>
      cases h
      simp only at hj ⊢
      rw [init_loop_of_lt shuffle _ hnext hj.2]
      have hlen : j - first < ((shuffle i).run (List.range' first (segment_end i - first))).length := by
        rw [((shuffle i).perm _).length_eq, List.length_range']
        omega
      have hstore := store_add mem first _ hlen
      rw [Nat.add_sub_cancel' hj.1] at hstore
      rw [hstore]
      exact List.getElem?_eq_getElem hlen

theorem puts_iff {shuffle : ℕ → Shuffle ℕ} (mem : ℕ → ℕ) {i j w : ℕ} (h : InSegment i j) :
    Puts (shuffle i) i j w ↔ Init shuffle mem j = w := by
  obtain ⟨s, hs, hj⟩ := h
  have hval := init_loop_getElem? shuffle mem (Nat.zero_le _) hs hj
  rw [Nat.zero_add] at hval
  simp only [Puts, hs, Option.some.injEq, exists_eq_left', hj.1, true_and, hval]
  rfl

theorem oneCycle_iff_unbroken (shuffle : ℕ → Shuffle ℕ) (mem : ℕ → ℕ) (i : ℕ) :
    OneCycle (shuffle i) i ↔ Unbroken (Init shuffle mem) {j | InSegment i j} := by
  -- Both ask the same of each part of the segment.
  refine forall_congr' fun A => ⟨fun h hA hne hmaps => ?_, fun h hne hA hputs => ?_⟩
  · refine h hne hA ?_
    intro j hj w hw
    rw [← (puts_iff mem (hA hj)).mp hw]
    exact hmaps hj
  · refine h hA hne ?_
    intro j hj
    exact hputs j hj _ ((puts_iff mem (hA j hj)).mpr rfl)

theorem finite_segment (i : ℕ) : {j | InSegment i j}.Finite :=
  (Set.finite_lt_nat num_words).subset fun _ h => h.lt_num_words

/-! ## The laws -/

/-- The links from the start of a segment lead through every word of the segment before they
are back at the start, just if the shuffle of the segment made one cycle. -/
theorem chase_covers_its_segment_iff (shuffle : ℕ → Shuffle ℕ) (mem : ℕ → ℕ) (i : ℕ) :
    (∀ first, init_pointers[i]? = some first →
      ∀ j, InSegment i j → ReachesFirst (Init shuffle mem) first j) ↔ OneCycle (shuffle i) i := by
  rw [oneCycle_iff_unbroken shuffle mem]
  cases hfirst : init_pointers[i]? with
  | none =>
    have hnone : segments[i]? = none := by
      rwa [init_pointers_eq, List.getElem?_map, Option.map_eq_none_iff] at hfirst
    have hempty : ∀ j, ¬ InSegment i j := by
      rintro j ⟨s, hs, -⟩
      rw [hnone] at hs
      cases hs
    simp [Unbroken, hempty]
  | some first =>
    simp only [Option.some.injEq, forall_eq']
    exact forall_reachesFirst_iff (finite_segment i) (bijOn_segment shuffle mem i)
      (inSegment_init hfirst)

/-- The shuffle that turns each segment round. -/
def turned : ℕ → Shuffle ℕ := fun _ => ⟨List.reverse, List.reverse_perm⟩

theorem inSegment_zero {j : ℕ} (hj : j < 8) : InSegment 0 j :=
  ⟨(0, 8), by decide, Nat.zero_le j, hj⟩

/-- The first and the last word of the first segment link to each other. -/
theorem init_turned (mem : ℕ → ℕ) : Init turned mem 0 = 7 ∧ Init turned mem 7 = 0 := by
  constructor
  · exact (puts_iff mem (inSegment_zero (by decide))).mp ⟨(0, 8), by decide, by decide, by decide⟩
  · exact (puts_iff mem (inSegment_zero (by decide))).mp ⟨(0, 8), by decide, by decide, by decide⟩

/-- The shuffle turned the first segment round, and the chase never gets to its second word. -/
theorem chase_misses_a_word :
    ∃ shuffle : ℕ → Shuffle ℕ,
      (shuffle 0).run (List.range' 0 8) = [7, 6, 5, 4, 3, 2, 1, 0] ∧
      ∀ mem, init_pointers[0]? = some 0 ∧ InSegment 0 1 ∧
        ¬ ReachesFirst (Init shuffle mem) 0 1 := by
  refine ⟨turned, by decide, ?_⟩
  intro mem
  refine ⟨by decide +kernel, inSegment_zero (by decide), ?_⟩
  obtain ⟨hstart, hend⟩ := init_turned mem
  rintro ⟨n, hn, hback⟩
  obtain rfl | rfl | hlong : n = 0 ∨ n = 1 ∨ 2 ≤ n := by omega
  · exact Nat.zero_ne_one hn
  · rw [Function.iterate_one, hstart] at hn
    exact absurd hn (by decide)
  · apply hback 2 (by decide) hlong
    rw [Function.iterate_succ_apply, Function.iterate_one, hstart, hend]

end ditto.service
