-- The request ranges of `generate_asm`. Each data size and each
-- instruction size gets a range of the request numbers of one iteration,
-- and the merge gives each block the range where both sizes hold.
import Ditto.Lib.PyDict
import Ditto.Lib.Rounding
import Ditto.Lib.Cuts

open Cuts

namespace ditto.assembly_generator

/-! ## The loops of `generate_asm` -/

/-- The loop that fills `dcache_req_range`, over the sizes that are left. `last` is the
last key of `dcache_stats`. -/
def dcache_range_loop (N : ℤ) (last : Option ℕ) :
    List (ℕ × ℚ) → ℤ → PyDict ℤ ℕ → PyDict ℤ ℕ
  | [], _, range => range
  | (s, w) :: rest, idx, range =>
    let idx_next := roundEven (idx + w * N)
    if last = some s then range.set N s
    else if N ≤ idx_next then range.set N s
    else if idx_next ∈ range.keys then dcache_range_loop N last rest idx_next range
    else dcache_range_loop N last rest idx_next (range.set idx_next s)

def dcache_req_range (N : ℤ) (dcache_stats : PyDict ℕ ℚ) : PyDict ℤ ℕ :=
  dcache_range_loop N dcache_stats.keys.getLast? dcache_stats.entries 0 .empty

/-- The loop that fills `icache_req_range`. It asks `dcache_req_range`, not the range it
fills, whether a bound is taken. -/
def icache_range_loop (N : ℤ) (dcache_range : PyDict ℤ ℕ) (first : Option ℕ) :
    List (ℕ × ℚ) → ℤ → PyDict ℤ ℕ → PyDict ℤ ℕ
  | [], _, range => range
  | (s, w) :: rest, idx, range =>
    let idx_next := roundEven (idx + w * N)
    if first = some s then range.set N s
    else if N ≤ idx_next then range.set N s
    else if idx_next ∈ dcache_range.keys then
      icache_range_loop N dcache_range first rest idx_next range
    else icache_range_loop N dcache_range first rest idx_next (range.set idx_next s)

/-- The sizes go in from the last key to the first. -/
def icache_req_range (N : ℤ) (dcache_range : PyDict ℤ ℕ) (icache_stats : PyDict ℕ ℚ) :
    PyDict ℤ ℕ :=
  icache_range_loop N dcache_range icache_stats.keys.head? icache_stats.entries.reverse 0 .empty

/-- The merge loop, from the index `i` of the data ranges and `j` of the instruction ranges. -/
def merge_loop (N : ℤ) (dcache icache : PyDict ℤ ℕ) :
    ℕ → ℤ → ℕ → ℕ → PyDict ℤ (ℕ × ℕ) → Except PyError (PyDict ℤ (ℕ × ℕ))
  | 0, _, _, _, _ => .error .outOfFuel
  | fuel + 1, idx, i, j, merged =>
    if idx < N then
      match dcache.entries[i]?, icache.entries[j]? with
      | some (dcache_key, d), some (icache_key, c) =>
        if dcache_key < icache_key then
          merge_loop N dcache icache fuel dcache_key (i + 1) j (merged.set dcache_key (d, c))
        else
          merge_loop N dcache icache fuel icache_key i (j + 1) (merged.set icache_key (d, c))
      | _, _ => .error .indexError
    else .ok merged

/-- Each turn of the merge moves one index, so this fuel covers every turn. -/
def dcache_icache_req_range (N : ℤ) (dcache_stats icache_stats : PyDict ℕ ℚ) :
    Except PyError (PyDict ℤ (ℕ × ℕ)) :=
  let dcache := dcache_req_range N dcache_stats
  let icache := icache_req_range N dcache icache_stats
  merge_loop N dcache icache (dcache.entries.length + icache.entries.length + 1) 0 0 0 .empty

/-! ## The bounds before the dictionaries drop any -/

/-- The rounded running sums, each with the size that asks for it, up to the size that
ends the iteration. -/
def rawCuts (N : ℤ) : List (ℕ × ℚ) → ℤ → List (ℤ × ℕ)
  | [], _ => []
  | [(s, _)], _ => [(N, s)]
  | (s, w) :: e :: rest, idx =>
    if N ≤ roundEven (idx + w * N) then [(N, s)]
    else (roundEven (idx + w * N), s) :: rawCuts N (e :: rest) (roundEven (idx + w * N))

variable {N : ℤ}

/-- The rounded running sum never falls. -/
theorem le_round_next {idx : ℤ} {w : ℚ} (hN : 0 ≤ N) (hw : 0 ≤ w) :
    idx ≤ roundEven (idx + w * N) := by
  apply le_roundEven
  have : (0 : ℚ) ≤ w * N := mul_nonneg hw (by exact_mod_cast hN)
  linarith

/-- The list ends with the key that the source compares with, and no other entry has it. -/
def EndsWith (last : Option ℕ) (es : List (ℕ × ℚ)) : Prop :=
  (es.map Prod.fst).Nodup ∧ es.getLast?.map Prod.fst = last

theorem endsWith_singleton {last : Option ℕ} {s : ℕ} {w : ℚ} (h : EndsWith last [(s, w)]) :
    last = some s := by
  have := h.2
  simpa using this.symm

theorem endsWith_cons {last : Option ℕ} {s : ℕ} {w : ℚ} {e : ℕ × ℚ} {rest : List (ℕ × ℚ)}
    (h : EndsWith last ((s, w) :: e :: rest)) : last ≠ some s ∧ EndsWith last (e :: rest) := by
  obtain ⟨hnd, hl⟩ := h
  rw [List.map_cons, List.nodup_cons] at hnd
  rw [List.getLast?_cons_cons] at hl
  refine ⟨?_, hnd.2, hl⟩
  intro hs
  apply hnd.1
  rw [hs] at hl
  obtain ⟨x, hx, hxs⟩ := Option.map_eq_some_iff.mp hl
  exact List.mem_map.mpr ⟨x, List.mem_of_getLast? hx, hxs⟩

theorem endsWith_dcache (stats : PyDict ℕ ℚ) : EndsWith stats.keys.getLast? stats.entries :=
  ⟨stats.nodup, by simp [PyDict.keys, List.getLast?_map]⟩

theorem endsWith_icache (stats : PyDict ℕ ℚ) : EndsWith stats.keys.head? stats.entries.reverse := by
  refine ⟨?_, ?_⟩
  · rw [List.map_reverse, List.nodup_reverse]
    exact stats.nodup
  · simp [PyDict.keys, List.head?_map]

/-! ## The data ranges -/

/-- The first key that the loop can still add when the running sum is `idx`. -/
def room (range : PyDict ℤ ℕ) (idx : ℤ) : ℤ := if idx ∈ range.keys then idx + 1 else idx

/-- The bounds `raw` from `idx` on are added to `range`, each bound once. -/
structure Adds (N idx : ℤ) (range out : PyDict ℤ ℕ) (raw new : List (ℤ × ℕ)) : Prop where
  entries : out.entries = range.entries ++ new
  tiles : Tiles N (room range idx) new
  pick_eq : ∀ r, idx ≤ r → pick new r = pick raw r
  mem_keys : ∀ k, k ∈ out.keys ↔ k ∈ range.keys ∨ k ∈ raw.map Prod.fst

section

variable {N idx next : ℤ} {range out : PyDict ℤ ℕ} {raw new : List (ℤ × ℕ)}

theorem Adds.last (s : ℕ) (hidx : idx < N) (hr : ∀ k ∈ range.keys, k ≤ idx) :
    Adds N idx range (range.set N s) [(N, s)] [(N, s)] where
  entries := PyDict.entries_set_new _ fun h => absurd (hr N h) (by omega)
  tiles := by
    apply Tiles.last
    unfold room
    split <;> omega
  pick_eq _ _ := rfl
  mem_keys k := by
    rw [PyDict.mem_keys_set]
    simp [or_comm]

/-- A bound that is a key already adds nothing. -/
theorem Adds.skip {s : ℕ} (h : Adds N idx range out raw new) (hmem : idx ∈ range.keys) :
    Adds N idx range out ((idx, s) :: raw) new where
  entries := h.entries
  tiles := h.tiles
  pick_eq r hr := by rw [h.pick_eq r hr, pick_cons_of_le _ _ hr]
  mem_keys k := by
    rw [h.mem_keys k, List.map_cons, List.mem_cons]
    refine ⟨Or.imp_right Or.inr, ?_⟩
    rintro (hk | rfl | hk)
    · exact Or.inl hk
    · exact Or.inl hmem
    · exact Or.inr hk

theorem Adds.write {s : ℕ} (h : Adds N next (range.set next s) out raw new) (hle : idx ≤ next)
    (hN : next < N) (hmem : next ∉ range.keys) :
    Adds N idx range out ((next, s) :: raw) ((next, s) :: new) where
  entries := by
    rw [h.entries, PyDict.entries_set_new _ hmem, List.append_assoc]
    rfl
  tiles := by
    have hin : next ∈ (range.set next s).keys := PyDict.mem_keys_set.mpr (Or.inl rfl)
    have htiles := h.tiles
    rw [room, if_pos hin] at htiles
    refine .cons s ?_ hN htiles
    unfold room
    split
    · rename_i hidx
      have hne : next ≠ idx := fun h => hmem (h ▸ hidx)
      omega
    · exact hle
  pick_eq r _ := by
    rw [pick_cons, pick_cons]
    split
    · rfl
    · exact h.pick_eq r (by omega)
  mem_keys k := by
    rw [h.mem_keys k, PyDict.mem_keys_set, List.map_cons, List.mem_cons]
    tauto

end

theorem dcache_range_loop_spec {N : ℤ} {last : Option ℕ} (es : List (ℕ × ℚ)) (idx : ℤ)
    (range : PyDict ℤ ℕ) (hne : es ≠ []) (hend : EndsWith last es)
    (hw : ∀ e ∈ es, (0 : ℚ) ≤ e.2) (hN : 0 ≤ N) (hidx : idx < N)
    (hr : ∀ k ∈ range.keys, k ≤ idx) :
    ∃ new, Adds N idx range (dcache_range_loop N last es idx range) (rawCuts N es idx) new := by
  match es with
  | [] => exact absurd rfl hne
  | [(s, w)] =>
    simp only [dcache_range_loop, endsWith_singleton hend, ↓reduceIte, rawCuts]
    exact ⟨_, .last s hidx hr⟩
  | (s, w) :: e :: rest =>
    obtain ⟨hnot, hend'⟩ := endsWith_cons hend
    have hle : idx ≤ roundEven (idx + w * N) := le_round_next hN (hw (s, w) List.mem_cons_self)
    have hw' : ∀ e' ∈ e :: rest, (0 : ℚ) ≤ e'.2 := fun e' he => hw e' (List.mem_cons_of_mem _ he)
    rw [dcache_range_loop, rawCuts]
    simp only [hnot, ↓reduceIte]
    generalize roundEven (idx + w * N) = next at hle ⊢
    by_cases hstop : N ≤ next
    · simp only [hstop, ↓reduceIte]
      exact ⟨_, .last s hidx hr⟩
    · simp only [hstop, ↓reduceIte]
      by_cases hmem : next ∈ range.keys
      · obtain rfl : next = idx := le_antisymm (hr next hmem) hle
        simp only [hmem, ↓reduceIte]
        obtain ⟨new, hnew⟩ :=
          dcache_range_loop_spec (e :: rest) next range (by simp) hend' hw' hN hidx hr
        exact ⟨new, hnew.skip hmem⟩
      · simp only [hmem, ↓reduceIte]
        have hr' : ∀ k ∈ (range.set next s).keys, k ≤ next := by
          intro k hk
          rcases PyDict.mem_keys_set.mp hk with rfl | hk
          · exact le_refl _
          · exact le_trans (hr k hk) hle
        obtain ⟨new, hnew⟩ := dcache_range_loop_spec (e :: rest) next (range.set next s)
          (by simp) hend' hw' hN (by omega) hr'
        exact ⟨(next, s) :: new, hnew.write hle (by omega) hmem⟩
termination_by es.length

/-- No weight of the stats is negative, and there is at least one size. -/
structure Weighted (stats : PyDict ℕ ℚ) : Prop where
  nonempty : stats.entries ≠ []
  nonneg : ∀ e ∈ stats.entries, (0 : ℚ) ≤ e.2

variable {stats : PyDict ℕ ℚ}

theorem dcache_req_range_spec (hN : 0 < N) (h : Weighted stats) :
    Tiles N 0 (dcache_req_range N stats).entries ∧
      (∀ r, 0 ≤ r → pick (dcache_req_range N stats).entries r = pick (rawCuts N stats.entries 0) r) ∧
      ∀ k, k ∈ (dcache_req_range N stats).keys ↔ k ∈ (rawCuts N stats.entries 0).map Prod.fst := by
  obtain ⟨new, hnew⟩ := dcache_range_loop_spec stats.entries 0 .empty h.nonempty
    (endsWith_dcache stats) h.nonneg (le_of_lt hN) hN (by simp)
  have hent := hnew.entries
  rw [PyDict.entries_empty, List.nil_append] at hent
  unfold dcache_req_range
  rw [hent]
  exact ⟨hnew.tiles, hnew.pick_eq, by simpa using hnew.mem_keys⟩

/-! ## The instruction ranges -/

/-- The next size asks for the same bound, so its write takes the place of the write
before it. The last size always asks for `N`. -/
def Overwritten (N next : ℤ) : List (ℕ × ℚ) → Prop
  | (_, w) :: _ :: _ => roundEven (next + w * N) = next
  | _ => False

instance (N next : ℤ) (es : List (ℕ × ℚ)) : Decidable (Overwritten N next es) :=
  match es with
  | (_, w) :: _ :: _ => inferInstanceAs (Decidable (roundEven (next + w * N) = next))
  | [] => inferInstanceAs (Decidable False)
  | [_] => inferInstanceAs (Decidable False)

/-- The size of the bound `next` loses its bound: a data size ends there, or the next
size writes over it. -/
def Dropped (D : List ℤ) (N next : ℤ) (rest : List (ℕ × ℚ)) : Prop :=
  next ∈ D ∨ Overwritten N next rest

instance (D : List ℤ) (N next : ℤ) (rest : List (ℕ × ℚ)) : Decidable (Dropped D N next rest) :=
  inferInstanceAs (Decidable (_ ∨ _))

/-- The bounds that `icache_req_range` keeps, when the data sizes end at the bounds `D`. -/
def keptCuts (D : List ℤ) (N : ℤ) : List (ℕ × ℚ) → ℤ → List (ℤ × ℕ)
  | [], _ => []
  | [(s, _)], _ => [(N, s)]
  | (s, w) :: e :: rest, idx =>
    let next := roundEven (idx + w * N)
    if N ≤ next then [(N, s)]
    else if Dropped D N next (e :: rest) then keptCuts D N (e :: rest) next
    else (next, s) :: keptCuts D N (e :: rest) next

theorem keptCuts_tiles {D : List ℤ} {N : ℤ} (es : List (ℕ × ℚ)) (idx : ℤ) (hne : es ≠ [])
    (hw : ∀ e ∈ es, (0 : ℚ) ≤ e.2) (hN : 0 ≤ N) (hidx : idx < N) :
    Tiles N idx (keptCuts D N es idx) ∧
      (¬ Overwritten N idx es → Tiles N (idx + 1) (keptCuts D N es idx)) := by
  match es with
  | [] => exact absurd rfl hne
  | [(s, w)] => exact ⟨.last s (by omega), fun _ => .last s (by omega)⟩
  | (s, w) :: e :: rest =>
    have hle : idx ≤ roundEven (idx + w * N) := le_round_next hN (hw (s, w) List.mem_cons_self)
    have hw' : ∀ e' ∈ e :: rest, (0 : ℚ) ≤ e'.2 := fun e' he => hw e' (List.mem_cons_of_mem _ he)
    simp only [keptCuts, Overwritten]
    generalize roundEven (idx + w * N) = next at hle ⊢
    by_cases hstopN : N ≤ next
    · simp only [hstopN, ↓reduceIte]
      exact ⟨.last s (by omega), fun _ => .last s (by omega)⟩
    · simp only [hstopN, ↓reduceIte]
      obtain ⟨hA, hB⟩ := keptCuts_tiles (D := D) (e :: rest) next (by simp) hw' hN (by omega)
      by_cases hd : Dropped D N next (e :: rest)
      · simp only [hd, ↓reduceIte]
        refine ⟨hA.mono hle, fun hne => hA.mono ?_⟩
        have : next ≠ idx := hne
        omega
      · simp only [hd, ↓reduceIte]
        have hB' := hB (fun h => hd (Or.inr h))
        refine ⟨.cons s hle (by omega) hB', fun hne => .cons s ?_ (by omega) hB'⟩
        have : next ≠ idx := hne
        omega
termination_by es.length

/-- No bound that is kept below `N` is a bound of the data sizes. -/
theorem keptCuts_not_mem {D : List ℤ} {N : ℤ} (es : List (ℕ × ℚ)) (idx : ℤ) (c : ℤ × ℕ)
    (hc : c ∈ keptCuts D N es idx) (hlt : c.1 < N) : c.1 ∉ D := by
  match es with
  | [] => simp [keptCuts] at hc
  | [(s, w)] =>
    simp only [keptCuts, List.mem_singleton] at hc
    subst hc
    exact absurd hlt (by simp)
  | (s, w) :: e :: rest =>
    simp only [keptCuts] at hc
    split at hc
    · simp only [List.mem_singleton] at hc
      subst hc
      exact absurd hlt (by simp)
    · split at hc
      · exact keptCuts_not_mem (e :: rest) _ c hc hlt
      · rename_i hd
        rcases List.mem_cons.mp hc with rfl | hc
        · exact fun h => hd (Or.inl h)
        · exact keptCuts_not_mem (e :: rest) _ c hc hlt
termination_by es.length

/-- The range holds `front` below `idx`, and at `idx` the size `top` when there is one. -/
structure Filled (range : PyDict ℤ ℕ) (front : List (ℤ × ℕ)) (idx : ℤ) (top : Option ℕ) : Prop where
  entries : range.entries = front ++ top.toList.map (fun s => (idx, s))
  below : ∀ c ∈ front, c.1 < idx

namespace Filled

variable {range : PyDict ℤ ℕ} {front : List (ℤ × ℕ)} {idx k : ℤ} {top : Option ℕ}

theorem key_le (h : Filled range front idx top) {c : ℤ × ℕ} (hc : c ∈ range.entries) :
    c.1 ≤ idx := by
  rw [h.entries, List.mem_append] at hc
  rcases hc with hc | hc
  · exact le_of_lt (h.below c hc)
  · obtain ⟨s, _, rfl⟩ := List.mem_map.mp hc
    exact le_refl _

theorem set_new (h : Filled range front idx top) (s : ℕ) (hk : idx < k) :
    (range.set k s).entries = range.entries ++ [(k, s)] := by
  apply PyDict.entries_set_new
  intro hmem
  obtain ⟨c, hc, rfl⟩ := List.mem_map.mp hmem
  exact absurd (h.key_le hc) (not_le.mpr hk)

/-- The running sum moves on, without a write or with one. -/
theorem move (h : Filled range front idx top) (hk : idx < k) : Filled range range.entries k none :=
  ⟨by simp, fun _ hc => lt_of_le_of_lt (h.key_le hc) hk⟩

theorem write (h : Filled range front idx top) (s : ℕ) (hk : idx < k) :
    Filled (range.set k s) range.entries k (some s) :=
  ⟨h.set_new s hk, (h.move hk).below⟩

/-- A write at the running sum takes the place of the write before it. -/
theorem overwrite (h : Filled range front idx top) (s : ℕ) :
    Filled (range.set idx s) front idx (some s) := by
  have hnew : idx ∉ front.map Prod.fst := by
    intro hmem
    obtain ⟨c, hc, hcn⟩ := List.mem_map.mp hmem
    have := h.below c hc
    omega
  refine ⟨?_, h.below⟩
  rw [PyDict.entries_set, h.entries]
  cases top with
  | none => simpa using PyDict.setEntries_of_not_mem front idx s hnew
  | some t => exact PyDict.setEntries_of_last front idx t s hnew

end Filled

/-- The loop keeps the entries below the running sum, drops the entry at the running sum
when the next size writes over it, and then adds the bounds of `keptCuts`. -/
theorem icache_range_loop_spec {N : ℤ} {first : Option ℕ} {dcache : PyDict ℤ ℕ}
    (es : List (ℕ × ℚ)) (idx : ℤ) (range : PyDict ℤ ℕ) (front : List (ℤ × ℕ)) (top : Option ℕ)
    (hne : es ≠ []) (hend : EndsWith first es) (hw : ∀ e ∈ es, (0 : ℚ) ≤ e.2) (hN : 0 ≤ N)
    (hidx : idx < N) (hfill : Filled range front idx top)
    (htop : top.isSome → idx ∉ dcache.keys) :
    (icache_range_loop N dcache first es idx range).entries =
      front ++ (if Overwritten N idx es then [] else top.toList.map (fun s => (idx, s))) ++
        keptCuts dcache.keys N es idx := by
  match es with
  | [] => exact absurd rfl hne
  | [(s, w)] =>
    simp only [icache_range_loop, endsWith_singleton hend, ↓reduceIte, keptCuts, Overwritten]
    rw [hfill.set_new s hidx, hfill.entries]
  | (s, w) :: e :: rest =>
    obtain ⟨hnot, hend'⟩ := endsWith_cons hend
    have hle : idx ≤ roundEven (idx + w * N) := le_round_next hN (hw (s, w) List.mem_cons_self)
    have hw' : ∀ e' ∈ e :: rest, (0 : ℚ) ≤ e'.2 := fun e' he => hw e' (List.mem_cons_of_mem _ he)
    rw [icache_range_loop, keptCuts]
    set next := roundEven (idx + w * N) with hnextdef
    have hover : Overwritten N idx ((s, w) :: e :: rest) ↔ next = idx := Iff.rfl
    simp only [hnot, hover, ↓reduceIte]
    by_cases hstop : N ≤ next
    · have hne : ¬ next = idx := by omega
      simp only [hstop, hne, ↓reduceIte]
      rw [hfill.set_new s hidx, hfill.entries]
    · simp only [hstop, ↓reduceIte]
      by_cases hmem : next ∈ dcache.keys
      · have hd : Dropped dcache.keys N next (e :: rest) := Or.inl hmem
        simp only [hmem, hd, ↓reduceIte]
        by_cases hn : next = idx
        · -- The bound is a data bound, so no earlier size could have written it.
          rw [hn] at hmem
          obtain rfl : top = none := Option.not_isSome_iff_eq_none.mp fun h => htop h hmem
          rw [hn, icache_range_loop_spec (e :: rest) idx range front none (by simp) hend' hw' hN
            hidx hfill (by simp)]
          simp
        · rw [icache_range_loop_spec (e :: rest) next range range.entries none (by simp) hend' hw'
            hN (by omega) (hfill.move (by omega)) (by simp), hfill.entries]
          simp [hn]
      · simp only [hmem, ↓reduceIte]
        by_cases hn : next = idx
        · rw [hn] at hmem ⊢
          rw [icache_range_loop_spec (e :: rest) idx (range.set idx s) front (some s) (by simp)
            hend' hw' hN hidx (hfill.overwrite s) (fun _ => hmem)]
          simp only [Dropped, hmem, false_or, Option.toList_some, List.map_cons, List.map_nil]
          split <;> simp
        · rw [icache_range_loop_spec (e :: rest) next (range.set next s) range.entries (some s)
            (by simp) hend' hw' hN (by omega) (hfill.write s (by omega)) (fun _ => hmem),
            hfill.entries]
          simp only [Dropped, hmem, hn, false_or, Option.toList_some, List.map_cons, List.map_nil]
          split <;> simp
termination_by es.length

theorem icache_req_range_entries (dcache : PyDict ℤ ℕ) (hN : 0 < N) (h : Weighted stats) :
    (icache_req_range N dcache stats).entries = keptCuts dcache.keys N stats.entries.reverse 0 := by
  unfold icache_req_range
  rw [icache_range_loop_spec stats.entries.reverse 0 .empty [] none
    (by simpa using h.nonempty) (endsWith_icache stats) (by simpa using h.nonneg) (le_of_lt hN) hN
    ⟨rfl, by simp⟩ (by simp)]
  split <;> rfl

theorem icache_req_range_tiles (dcache : PyDict ℤ ℕ) (hN : 0 < N) (h : Weighted stats) :
    Tiles N 0 (icache_req_range N dcache stats).entries := by
  rw [icache_req_range_entries dcache hN h]
  exact (keptCuts_tiles _ 0 (by simpa using h.nonempty) (by simpa using h.nonneg) (le_of_lt hN) hN).1

/-! ## The merge -/

theorem getElem?_of_drop {α : Type} {l rest : List α} {i : ℕ} {a : α} (h : l.drop i = a :: rest) :
    l[i]? = some a ∧ l.drop (i + 1) = rest := by
  refine ⟨?_, ?_⟩
  · rw [← List.head?_drop, h]
    rfl
  · rw [← List.tail_drop, h]
    rfl

/-- The writes that the merge loop makes, in order: `merge_loop` without its dictionary. -/
def merge_writes (N : ℤ) (dcache icache : PyDict ℤ ℕ) :
    ℕ → ℤ → ℕ → ℕ → Except PyError (List (ℤ × ℕ × ℕ))
  | 0, _, _, _ => .error .outOfFuel
  | fuel + 1, idx, i, j =>
    if idx < N then
      match dcache.entries[i]?, icache.entries[j]? with
      | some (dcache_key, d), some (icache_key, c) =>
        if dcache_key < icache_key then
          (merge_writes N dcache icache fuel dcache_key (i + 1) j).map ((dcache_key, d, c) :: ·)
        else
          (merge_writes N dcache icache fuel icache_key i (j + 1)).map ((icache_key, d, c) :: ·)
      | _, _ => .error .indexError
    else .ok []

/-- The loop makes its writes and nothing else. -/
theorem merge_loop_eq_setAll (N : ℤ) (dcache icache : PyDict ℤ ℕ) (fuel : ℕ) (idx : ℤ) (i j : ℕ)
    (merged : PyDict ℤ (ℕ × ℕ)) :
    merge_loop N dcache icache fuel idx i j merged =
      (merge_writes N dcache icache fuel idx i j).map merged.setAll := by
  induction fuel generalizing idx i j merged with
  | zero => rfl
  | succ fuel ih =>
    unfold merge_loop merge_writes
    split
    · rcases dcache.entries[i]? with _ | ⟨b, s⟩
      · rfl
      · rcases icache.entries[j]? with _ | ⟨c, t⟩
        · rfl
        · dsimp only
          split
          · rw [ih]
            cases merge_writes N dcache icache fuel b (i + 1) j with
            | error err => rfl
            | ok ws => rfl
          · rw [ih]
            cases merge_writes N dcache icache fuel c i (j + 1) with
            | error err => rfl
            | ok ws => rfl
    · rfl

/-- The merge never leaves a list early, and it writes the bounds of both lists in order. -/
theorem merge_writes_spec (dcache icache : PyDict ℤ ℕ) (fuel : ℕ) (idx lo : ℤ) (i j : ℕ)
    (hidx : idx < N) (hd : Tiles N lo (dcache.entries.drop i))
    (hc : Tiles N lo (icache.entries.drop j))
    (hdis : Apart N (dcache.entries.drop i) (icache.entries.drop j))
    (hfuel : (dcache.entries.drop i).length + (icache.entries.drop j).length < fuel) :
    merge_writes N dcache icache fuel idx i j =
      .ok (merge N (dcache.entries.drop i) (icache.entries.drop j)) := by
  induction fuel generalizing idx lo i j with
  | zero => exact absurd hfuel (by omega)
  | succ fuel ih =>
    obtain ⟨b, s, drest, hdrop, hlob, hbN⟩ := hd.exists_cons
    obtain ⟨c, t, crest, hcrop, hloc, hcN⟩ := hc.exists_cons
    obtain ⟨hdget, hdnext⟩ := getElem?_of_drop hdrop
    obtain ⟨hcget, hcnext⟩ := getElem?_of_drop hcrop
    rw [hdrop, hcrop] at hdis hfuel ⊢
    rw [hdrop] at hd
    rw [hcrop] at hc
    simp only [List.length_cons] at hfuel
    rw [merge_writes, merge]
    simp only [hidx, hdget, hcget, ↓reduceIte]
    by_cases hbc : b < c
    · have hblt : b < N := by omega
      have hrest := ih b (b + 1) (i + 1) j hblt (hdnext ▸ hd.tail hblt)
        (hcrop ▸ hc.raise (by omega)) (hdnext ▸ hcrop ▸ hdis.tail_left)
        (by rw [hdnext, hcrop, List.length_cons]; omega)
      rw [hdnext, hcrop] at hrest
      simp only [hbc, ↓reduceIte, hrest]
      rfl
    · simp only [hbc, ↓reduceIte]
      by_cases hcend : c < N
      · have hlt := hdis.lt_of_not_lt hbc hcend
        have hrest := ih c (c + 1) i (j + 1) hcend (hdrop ▸ hd.raise (by omega))
          (hcnext ▸ hc.tail hcend) (hdrop ▸ hcnext ▸ hdis.tail_right)
          (by rw [hdrop, hcnext, List.length_cons]; omega)
        rw [hdrop, hcnext] at hrest
        simp only [hcend, ↓reduceIte, hrest]
        rfl
      · -- Both lists are at their last bound, so this turn writes `N` and the loop ends.
        simp only [hcend, ↓reduceIte]
        cases fuel with
        | zero => omega
        | succ fuel =>
          simp only [merge_writes, hcend, ↓reduceIte]
          rfl

section

variable {N : ℤ} {dcache_stats icache_stats : PyDict ℕ ℚ}

/-- No instruction range ends where a data range ends, below `N`. -/
theorem ranges_apart (hN : 0 < N) (hi : Weighted icache_stats) :
    Apart N (dcache_req_range N dcache_stats).entries
      (icache_req_range N (dcache_req_range N dcache_stats) icache_stats).entries := by
  intro x hx y hy hxN hxy
  rw [icache_req_range_entries _ hN hi] at hy
  apply keptCuts_not_mem _ _ y hy (by omega)
  rw [← hxy]
  exact List.mem_map_of_mem hx

/-- The writes of the merge in `generate_asm`. -/
def dcache_icache_writes (N : ℤ) (dcache_stats icache_stats : PyDict ℕ ℚ) :
    Except PyError (List (ℤ × ℕ × ℕ)) :=
  let dcache := dcache_req_range N dcache_stats
  let icache := icache_req_range N dcache icache_stats
  merge_writes N dcache icache (dcache.entries.length + icache.entries.length + 1) 0 0 0

theorem dcache_icache_writes_spec (hN : 0 < N) (hd : Weighted dcache_stats)
    (hi : Weighted icache_stats) :
    dcache_icache_writes N dcache_stats icache_stats =
      .ok (merge N (dcache_req_range N dcache_stats).entries
        (icache_req_range N (dcache_req_range N dcache_stats) icache_stats).entries) :=
  merge_writes_spec _ _ _ 0 0 0 0 hN (dcache_req_range_spec hN hd).1
    (icache_req_range_tiles _ hN hi) (ranges_apart hN hi) (Nat.lt_succ_self _)

/-- The merge ends without an index error, and its entries are its writes. -/
theorem dcache_icache_req_range_eq (hN : 0 < N) (hd : Weighted dcache_stats)
    (hi : Weighted icache_stats) :
    ∃ m, dcache_icache_req_range N dcache_stats icache_stats = .ok m ∧
      m.entries = merge N (dcache_req_range N dcache_stats).entries
        (icache_req_range N (dcache_req_range N dcache_stats) icache_stats).entries := by
  have hwrites := dcache_icache_writes_spec hN hd hi
  have htiles := (dcache_req_range_spec hN hd).1.merge
    (icache_req_range_tiles (dcache_req_range N dcache_stats) hN hi) (ranges_apart hN hi)
  unfold dcache_icache_writes at hwrites
  unfold dcache_icache_req_range
  simp only [merge_loop_eq_setAll, hwrites]
  refine ⟨_, rfl, ?_⟩
  rw [PyDict.entries_setAll (by simpa using htiles.nodup)]
  rfl

/-- The merge ends without an index error. Its bounds rise from 0 to `N`, and at each
request number it holds the pair of the data size and the instruction size. -/
theorem dcache_icache_req_range_spec (hN : 0 < N) (hd : Weighted dcache_stats)
    (hi : Weighted icache_stats) :
    ∃ m, dcache_icache_req_range N dcache_stats icache_stats = .ok m ∧ Tiles N 0 m.entries ∧
      ∀ r x y, pick (dcache_req_range N dcache_stats).entries r = some x →
        pick (icache_req_range N (dcache_req_range N dcache_stats) icache_stats).entries r = some y →
        pick m.entries r = some (x, y) := by
  have hdt := (dcache_req_range_spec hN hd).1
  have hct := icache_req_range_tiles (dcache_req_range N dcache_stats) hN hi
  have hdis := @ranges_apart _ dcache_stats _ hN hi
  obtain ⟨m, hok, hent⟩ := dcache_icache_req_range_eq hN hd hi
  refine ⟨m, hok, hent ▸ hdt.merge hct hdis, ?_⟩
  intro r x y hx hy
  rw [hent]
  exact hdt.pick_merge hct hdis hx hy

end

/-! ## The laws -/

/-- The merge is pointwise. It writes each key once, so no entry is overwritten. Each
request number of the iteration lies in one block, and this block holds the size of the
first data bound past the number and the size of the first instruction bound past it. -/
theorem merged_ranges_are_pointwise {N : ℤ} {dcache_stats icache_stats : PyDict ℕ ℚ} (hN : 1 ≤ N)
    (hd : Weighted dcache_stats) (hi : Weighted icache_stats) :
    ∃ merged writes,
      dcache_icache_req_range N dcache_stats icache_stats = .ok merged ∧
      dcache_icache_writes N dcache_stats icache_stats = .ok writes ∧
      (writes.map Prod.fst).Nodup ∧ merged.entries = writes ∧
      ∀ r, 0 ≤ r → r < N →
        (blocks 0 merged.entries).countP (inBlock r) = 1 ∧
        ∀ block ∈ blocks 0 merged.entries, inBlock r block = true →
          pick (dcache_req_range N dcache_stats).entries r = some block.2.2.1 ∧
          pick (icache_req_range N (dcache_req_range N dcache_stats) icache_stats).entries r =
            some block.2.2.2 := by
  obtain ⟨merged, hok, hent⟩ := dcache_icache_req_range_eq hN hd hi
  obtain ⟨m, hok', htiles, hpair⟩ := dcache_icache_req_range_spec hN hd hi
  obtain rfl : merged = m := by
    rw [hok] at hok'
    exact Except.ok.inj hok'
  refine ⟨merged, merged.entries, hok, ?_, htiles.nodup, rfl, ?_⟩
  · rw [hent]
    exact dcache_icache_writes_spec hN hd hi
  · intro r hr hrN
    refine ⟨htiles.countP_blocks (le_refl _) hr hrN, ?_⟩
    intro block hblock hin
    obtain ⟨x, hx⟩ := (dcache_req_range_spec hN hd).1.pick_isSome hrN
    obtain ⟨y, hy⟩ := (icache_req_range_tiles (dcache_req_range N dcache_stats) hN hi).pick_isSome hrN
    have hxy := (htiles.pick_of_mem_blocks (le_refl _) hblock hin).symm.trans (hpair r x y hx hy)
    rw [Option.some_inj] at hxy
    rw [hxy]
    exact ⟨hx, hy⟩

/-- Data sizes and instruction sizes whose bounds alternate. -/
def quarterData : PyDict ℕ ℚ := ⟨[(64, 1 / 4), (128, 3 / 4)], by decide⟩

def evenInsts : PyDict ℕ ℚ := ⟨[(4096, 1 / 2), (8192, 1 / 2)], by decide⟩

/-- The law on four requests: the data bound is 1 and the instruction bound is 2. -/
theorem merged_ranges_of_four_requests_are_pointwise :
    ∃ merged writes,
      dcache_icache_req_range 4 quarterData evenInsts = .ok merged ∧
      dcache_icache_writes 4 quarterData evenInsts = .ok writes ∧
      (writes.map Prod.fst).Nodup ∧ merged.entries = writes ∧
      ∀ r, 0 ≤ r → r < 4 →
        (blocks 0 merged.entries).countP (inBlock r) = 1 ∧
        ∀ block ∈ blocks 0 merged.entries, inBlock r block = true →
          pick (dcache_req_range 4 quarterData).entries r = some block.2.2.1 ∧
          pick (icache_req_range 4 (dcache_req_range 4 quarterData) evenInsts).entries r =
            some block.2.2.2 :=
  merged_ranges_are_pointwise (by decide) ⟨by decide, by decide +kernel⟩
    ⟨by decide, by decide +kernel⟩

end ditto.assembly_generator
