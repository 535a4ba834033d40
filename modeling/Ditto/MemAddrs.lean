-- The addresses of a block. Each access gets a cache line out of a shuffled
-- list of line numbers, as an offset to the address register. The list is
-- long enough for the accesses of the block, and the offsets stay within the
-- bytes by which one turn of the loop moves the address register.
import Ditto.RegAlloc
import Mathlib.Data.Nat.Bitwise

open LabelMachine

namespace ditto.assembly_generator

/-! ## The model -/

def CACHELINE_SIZE : ℕ := 64

/-- The sizes from here on spread their accesses over pages. -/
def PAGED_SIZE : ℕ := 512 * 1024

def num_cachelines_in_loop (mem_size num_mem_accesses : ℕ) : ℕ :=
  min num_mem_accesses (mem_size / CACHELINE_SIZE)

/-- The sizes are powers of two, so the quotients of the source are exact. -/
def n_repeat (mem_size num_mem_accesses : ℕ) : ℕ :=
  max 1 (num_mem_accesses * CACHELINE_SIZE / mem_size + 1)

def num_indices (page_multiplier mem_size num_mem_accesses : ℕ) : ℕ :=
  if PAGED_SIZE ≤ mem_size then num_cachelines_in_loop mem_size num_mem_accesses * page_multiplier
  else num_cachelines_in_loop mem_size num_mem_accesses

def rand_cacheline_indices (page_multiplier mem_size num_mem_accesses : ℕ) (shuffle : Shuffle ℕ) :
    List ℕ :=
  (List.replicate (n_repeat mem_size num_mem_accesses)
    (shuffle.run (List.range (num_indices page_multiplier mem_size num_mem_accesses)))).flatten

def mem_addr (mem_size index : ℕ) : ℕ := (index * CACHELINE_SIZE) &&& (mem_size - 1)

/-- The loop over the addresses of one line, from entry `idx` of the list on. -/
def place_line (indices : List ℕ) (mem_size : ℕ) :
    ℕ → ℕ → List Stmt → Except PyError (ℕ × List Stmt)
  | 0, _, _ => .error .outOfFuel
  | fuel + 1, idx, line =>
    if .memaddr ∈ line_operands line then
      match indices[idx]? with
      | none => .error .indexError
      | some index =>
        place_line indices mem_size fuel (idx + 1)
          (replace_last .memaddr (.mem ADDR_OFFSET_REG (mem_addr mem_size index)) line)
    else .ok (idx, line)

def place_lines (indices : List ℕ) (mem_size : ℕ) :
    ℕ → List (List Stmt) → Except PyError (List (List Stmt))
  | _, [] => .ok []
  | idx, line :: rest => do
    let (idx, line) ← place_line indices mem_size ((line_operands line).length + 1) idx line
    let rest ← place_lines indices mem_size idx rest
    return line :: rest

def allocate_mem_addrs (page_multiplier : ℕ) (shuffle : Shuffle ℕ) (asm_lines : List (List Stmt))
    (mem_size num_mem_accesses : ℕ) : Except PyError (List (List Stmt)) :=
  place_lines (rand_cacheline_indices page_multiplier mem_size num_mem_accesses shuffle) mem_size
    0 asm_lines

/-- The model of `asm.count('<MEMADDR>')`, summed over the lines. -/
def num_memaddrs (asm_lines : List (List Stmt)) : ℕ :=
  (asm_lines.map fun line => (line_operands line).count .memaddr).sum

def shift_size (page_multiplier mem_size num_static_mem_accesses : ℕ) : ℕ :=
  if PAGED_SIZE ≤ mem_size then
    min (num_static_mem_accesses * page_multiplier) (mem_size / CACHELINE_SIZE) * CACHELINE_SIZE
  else min num_static_mem_accesses (mem_size / CACHELINE_SIZE) * CACHELINE_SIZE

/-! ## The placement -/

/-- The offsets to the address register in a line. -/
def Offset (line : List Stmt) (offset : ℕ) : Prop :=
  .mem ADDR_OFFSET_REG offset ∈ line_operands line

/-- The line with an address in the place of each placeholder. -/
structure PlacedLine (indices : List ℕ) (mem_size : ℕ) (line line' : List Stmt) : Prop where
  shape_eq : line'.map shape = line.map shape
  offsets : ∀ offset, Offset line' offset →
    Offset line offset ∨ ∃ index ∈ indices, offset = mem_addr mem_size index

theorem perm_replace_memaddr {line : List Stmt} (h : .memaddr ∈ line_operands line)
    (new : Operand) :
    (line_operands (replace_last .memaddr new line)).Perm
      (new :: (line_operands line).erase .memaddr) := by
  rw [line_operands_replace_last]
  exact Text.replaceLast_perm new h

theorem count_replace_memaddr {line : List Stmt} (h : .memaddr ∈ line_operands line) {new : Operand}
    (hnew : new ≠ .memaddr) :
    (line_operands (replace_last .memaddr new line)).count .memaddr + 1 =
      (line_operands line).count .memaddr := by
  have hpos : 0 < (line_operands line).count .memaddr := List.count_pos_iff.mpr h
  rw [(perm_replace_memaddr h new).count_eq, List.count_cons_of_ne hnew, List.count_erase_self]
  omega

variable {indices : List ℕ} {mem_size fuel idx idx' : ℕ} {line line' : List Stmt}
  {lines lines' : List (List Stmt)}

/-- With an entry of the list for each placeholder, the loop replaces all of them. -/
theorem place_line_total (hfuel : (line_operands line).count .memaddr < fuel)
    (hidx : idx + (line_operands line).count .memaddr ≤ indices.length) :
    ∃ line', place_line indices mem_size fuel idx line =
      .ok (idx + (line_operands line).count .memaddr, line') := by
  induction fuel generalizing idx line with
  | zero => omega
  | succ fuel ih =>
    unfold place_line
    split
    · rename_i hmem
      have hpos : 0 < (line_operands line).count .memaddr := List.count_pos_iff.mpr hmem
      have hlt : idx < indices.length := by omega
      rw [List.getElem?_eq_getElem hlt]
      simp only
      generalize hnew : Operand.mem ADDR_OFFSET_REG (mem_addr mem_size indices[idx]) = new
      have hcount := count_replace_memaddr hmem (by rw [← hnew]; simp : new ≠ .memaddr)
      obtain ⟨line', hline'⟩ :=
        @ih (idx + 1) (replace_last .memaddr new line) (by omega) (by omega)
      refine ⟨line', ?_⟩
      rw [hline', ← hcount]
      congr 2
      omega
    · rename_i hmem
      rw [List.count_eq_zero.mpr hmem]
      exact ⟨line, rfl⟩

theorem place_lines_total (hidx : idx + num_memaddrs lines ≤ indices.length) :
    ∃ lines', place_lines indices mem_size idx lines = .ok lines' := by
  induction lines generalizing idx with
  | nil => exact ⟨[], rfl⟩
  | cons line rest ih =>
    have hsum : num_memaddrs (line :: rest) =
        (line_operands line).count .memaddr + num_memaddrs rest := List.sum_cons
    obtain ⟨line', hline'⟩ := @place_line_total indices mem_size
      ((line_operands line).length + 1) idx line (Nat.lt_succ_of_le List.count_le_length)
      (by omega)
    obtain ⟨rest', hrest'⟩ := @ih (idx + (line_operands line).count .memaddr) (by omega)
    refine ⟨line' :: rest', ?_⟩
    unfold place_lines
    rw [hline']
    simp only [bind, Except.bind, hrest']
    rfl

theorem place_line_placed (h : place_line indices mem_size fuel idx line = .ok (idx', line')) :
    PlacedLine indices mem_size line line' := by
  induction fuel generalizing idx line with
  | zero => cases h
  | succ fuel ih =>
    unfold place_line at h
    split at h
    · rename_i hmem
      split at h
      · cases h
      · rename_i index hindex
        have hplaced := ih h
        refine ⟨hplaced.shape_eq.trans (shape_replace_last _ _ _), ?_⟩
        intro offset hoffset
        rcases hplaced.offsets offset hoffset with hnew | hnew
        · rcases List.mem_cons.mp ((perm_replace_memaddr hmem _).mem_iff.mp hnew) with hnew | hold
          · cases hnew
            exact .inr ⟨index, List.mem_of_getElem? hindex, rfl⟩
          · exact .inl (List.mem_of_mem_erase hold)
        · exact .inr hnew
    · cases h
      exact ⟨rfl, fun offset h => .inl h⟩

/-- What each line has to do with the line it becomes. -/
theorem place_lines_forall₂ {R : List Stmt → List Stmt → Prop}
    (hR : ∀ {fuel idx idx' line line'}, place_line indices mem_size fuel idx line = .ok (idx', line') →
      R line line')
    (h : place_lines indices mem_size idx lines = .ok lines') : List.Forall₂ R lines lines' := by
  induction lines generalizing idx lines' with
  | nil =>
    cases h
    exact .nil
  | cons line rest ih =>
    unfold place_lines at h
    obtain ⟨⟨idx', line'⟩, hline, h⟩ := PyError.ok_of_bind h
    obtain ⟨rest', hrest, h⟩ := PyError.ok_of_bind h
    cases h
    exact .cons (hR hline) (ih hrest)

theorem place_lines_placed (h : place_lines indices mem_size idx lines = .ok lines') :
    List.Forall₂ (PlacedLine indices mem_size) lines lines' :=
  place_lines_forall₂ place_line_placed h

/-- The loop uses the entries of the list from `idx` to `idx'`, and keeps the addresses that
are there. -/
structure UsedLine (indices : List ℕ) (mem_size idx idx' : ℕ) (line line' : List Stmt) : Prop where
  count : idx' = idx + (line_operands line).count .memaddr
  keeps : ∀ offset, Offset line offset → Offset line' offset
  uses : ∀ j, idx ≤ j → j < idx' →
    ∃ index, indices[j]? = some index ∧ Offset line' (mem_addr mem_size index)

theorem place_line_used (h : place_line indices mem_size fuel idx line = .ok (idx', line')) :
    UsedLine indices mem_size idx idx' line line' := by
  induction fuel generalizing idx line with
  | zero => cases h
  | succ fuel ih =>
    unfold place_line at h
    split at h
    · rename_i hmem
      split at h
      · cases h
      · rename_i index hindex
        have hused := ih h
        have hperm := perm_replace_memaddr hmem (.mem ADDR_OFFSET_REG (mem_addr mem_size index))
        have hcount := count_replace_memaddr hmem
          (by simp : Operand.mem ADDR_OFFSET_REG (mem_addr mem_size index) ≠ .memaddr)
        refine ⟨?_, ?_, ?_⟩
        · have := hused.count
          omega
        · intro offset hoffset
          apply hused.keeps
          apply hperm.mem_iff.mpr
          exact List.mem_cons_of_mem _ ((List.mem_erase_of_ne (by simp)).mpr hoffset)
        · intro j hj hj'
          rcases Nat.eq_or_lt_of_le hj with rfl | hj
          · exact ⟨index, hindex, hused.keeps _ (hperm.mem_iff.mpr List.mem_cons_self)⟩
          · exact hused.uses j hj hj'
    · rename_i hmem
      cases h
      refine ⟨?_, fun _ h => h, fun j hj hj' => absurd hj' (Nat.not_lt.mpr hj)⟩
      rw [List.count_eq_zero.mpr hmem]
      rfl

/-- Each placeholder gets the next entry of the list. -/
theorem place_lines_used
    (h : place_lines indices mem_size idx lines = .ok lines') {j : ℕ} (hj : idx ≤ j)
    (hj' : j < idx + num_memaddrs lines) :
    ∃ index, indices[j]? = some index ∧ ∃ line' ∈ lines', Offset line' (mem_addr mem_size index) := by
  induction lines generalizing idx lines' with
  | nil => exact absurd hj' (Nat.not_lt.mpr hj)
  | cons line rest ih =>
    unfold place_lines at h
    obtain ⟨⟨idx', line'⟩, hline, h⟩ := PyError.ok_of_bind h
    obtain ⟨rest', hrest, h⟩ := PyError.ok_of_bind h
    cases h
    have hused := place_line_used hline
    have hsum : num_memaddrs (line :: rest) =
        (line_operands line).count .memaddr + num_memaddrs rest := List.sum_cons
    have hcount := hused.count
    rcases Nat.lt_or_ge j idx' with hlt | hge
    · obtain ⟨index, hindex, hoffset⟩ := hused.uses j hj hlt
      exact ⟨index, hindex, line', List.mem_cons_self, hoffset⟩
    · obtain ⟨index, hindex, line'', hmem, hoffset⟩ := ih hrest hge (by omega)
      exact ⟨index, hindex, line'', List.mem_cons_of_mem _ hmem, hoffset⟩

section statements

variable {ok : Stmt → Prop}

/-- An address in the place of a placeholder keeps the property. -/
def KeptByAddrs (ok : Stmt → Prop) : Prop :=
  ∀ offset st, ok st → ok (replace_operand .memaddr (.mem ADDR_OFFSET_REG offset) st)

theorem place_line_all (hok : KeptByAddrs ok)
    (h : place_line indices mem_size fuel idx line = .ok (idx', line')) (hline : ∀ s ∈ line, ok s) :
    ∀ s ∈ line', ok s := by
  induction fuel generalizing idx line with
  | zero => cases h
  | succ fuel ih =>
    unfold place_line at h
    split at h
    · split at h
      · cases h
      · exact ih h (replace_last_all (hok _) hline)
    · cases h
      exact hline

theorem place_lines_all (hok : KeptByAddrs ok)
    (h : place_lines indices mem_size idx lines = .ok lines')
    (hlines : ∀ line ∈ lines, ∀ s ∈ line, ok s) : ∀ line ∈ lines', ∀ s ∈ line, ok s := by
  intro line' hline'
  obtain ⟨line, hline, hall⟩ :=
    exists_of_forall₂ (place_lines_forall₂ (place_line_all hok) h) hline'
  exact hall (hlines line hline)

end statements

/-! ## The offsets -/

variable {shuffle : Shuffle ℕ} {page_multiplier index : ℕ}

section sizes

variable {mem_size num_mem_accesses : ℕ}

theorem mem_rand_cacheline_indices
    (h : index ∈ rand_cacheline_indices page_multiplier mem_size num_mem_accesses shuffle) :
    index < num_indices page_multiplier mem_size num_mem_accesses := by
  obtain ⟨indices, hindices, hmem⟩ := List.mem_flatten.mp h
  rw [List.eq_of_mem_replicate hindices, (shuffle.perm _).mem_iff] at hmem
  exact List.mem_range.mp hmem

theorem length_rand_cacheline_indices (shuffle : Shuffle ℕ) :
    (rand_cacheline_indices page_multiplier mem_size num_mem_accesses shuffle).length =
      n_repeat mem_size num_mem_accesses *
        num_indices page_multiplier mem_size num_mem_accesses := by
  unfold rand_cacheline_indices
  rw [List.length_flatten, List.map_replicate, List.sum_replicate_nat, (shuffle.perm _).length_eq,
    List.length_range]

theorem num_cachelines_le_num_indices (hpages : 1 ≤ page_multiplier) :
    num_cachelines_in_loop mem_size num_mem_accesses ≤
      num_indices page_multiplier mem_size num_mem_accesses := by
  unfold num_indices
  split
  · exact Nat.le_mul_of_pos_right _ hpages
  · exact Nat.le_refl _

/-- The list is long enough for all accesses. -/
theorem num_mem_accesses_le {lines : ℕ} (hlines : 0 < lines)
    (hsize : mem_size = lines * CACHELINE_SIZE) (hpages : 1 ≤ page_multiplier) :
    num_mem_accesses ≤ n_repeat mem_size num_mem_accesses *
      num_indices page_multiplier mem_size num_mem_accesses := by
  have hrepeat : n_repeat mem_size num_mem_accesses = num_mem_accesses / lines + 1 := by
    unfold n_repeat
    rw [hsize, Nat.mul_div_mul_right _ _ (by decide)]
    exact Nat.max_eq_right (Nat.le_add_left 1 _)
  have hloop : num_cachelines_in_loop mem_size num_mem_accesses = min num_mem_accesses lines := by
    unfold num_cachelines_in_loop
    rw [hsize, Nat.mul_div_cancel _ (by decide)]
  have hle : min num_mem_accesses lines ≤ num_indices page_multiplier mem_size num_mem_accesses := by
    rw [← hloop]
    exact num_cachelines_le_num_indices hpages
  rw [hrepeat]
  refine Nat.le_trans ?_ (Nat.mul_le_mul_left _ hle)
  rcases Nat.le_total num_mem_accesses lines with h | h
  · rw [Nat.min_eq_left h]
    exact Nat.le_mul_of_pos_left _ (Nat.succ_pos _)
  · rw [Nat.min_eq_right h]
    exact ((Nat.div_lt_iff_lt_mul hlines).mp (Nat.lt_succ_self _)).le

/-- The list starts with each line number once. -/
theorem exists_rand_cacheline_index (shuffle : Shuffle ℕ)
    (h : index < num_indices page_multiplier mem_size num_mem_accesses) :
    ∃ j < num_indices page_multiplier mem_size num_mem_accesses,
      (rand_cacheline_indices page_multiplier mem_size num_mem_accesses shuffle)[j]? = some index := by
  unfold rand_cacheline_indices
  generalize num_indices page_multiplier mem_size num_mem_accesses = n at h ⊢
  have hperm := shuffle.perm (List.range n)
  obtain ⟨j, hj, hget⟩ := List.mem_iff_getElem.mp (hperm.mem_iff.mpr (List.mem_range.mpr h))
  obtain ⟨r, hr⟩ : ∃ r, n_repeat mem_size num_mem_accesses = r + 1 :=
    Nat.exists_eq_succ_of_ne_zero (by unfold n_repeat; omega)
  refine ⟨j, by rwa [hperm.length_eq, List.length_range] at hj, ?_⟩
  rw [hr, List.replicate_succ, List.flatten_cons, List.getElem?_append_left hj,
    List.getElem?_eq_getElem hj, hget]

/-- The offset of a cache line, when the size is a power of two. -/
theorem mem_addr_eq {k lines : ℕ} (hk : 2 ^ k = lines * CACHELINE_SIZE) (index : ℕ) :
    mem_addr (2 ^ k) index = index % lines * CACHELINE_SIZE := by
  unfold mem_addr
  rw [Nat.and_two_pow_sub_one_eq_mod, hk, Nat.mul_mod_mul_right]

theorem shift_size_le : shift_size page_multiplier mem_size num_mem_accesses ≤ mem_size := by
  have hlines := Nat.div_mul_le_self mem_size CACHELINE_SIZE
  unfold shift_size
  split
  · exact Nat.le_trans (Nat.mul_le_mul_right _ (Nat.min_le_right _ _)) hlines
  · exact Nat.le_trans (Nat.mul_le_mul_right _ (Nat.min_le_right _ _)) hlines

/-- The cache line of an access ends before the bytes of the next turn start. -/
theorem mem_addr_add_le {k lines : ℕ} (hlines : 0 < lines) (hk : 2 ^ k = lines * CACHELINE_SIZE)
    (h : index < num_indices page_multiplier (2 ^ k) num_mem_accesses) :
    mem_addr (2 ^ k) index + CACHELINE_SIZE ≤
      shift_size page_multiplier (2 ^ k) num_mem_accesses := by
  have hmod : index % lines < lines := Nat.mod_lt index hlines
  have hle : index % lines ≤ index := Nat.mod_le index lines
  have hshift : ∀ n, index < n → index % lines + 1 ≤ min n lines := by
    intro n hn
    omega
  have hdiv : 2 ^ k / CACHELINE_SIZE = lines := by
    rw [hk, Nat.mul_div_cancel _ (by decide)]
  rw [mem_addr_eq hk, ← Nat.succ_mul]
  unfold num_indices num_cachelines_in_loop at h
  unfold shift_size
  rw [hdiv] at h ⊢
  split
  · rename_i hpaged
    rw [if_pos hpaged] at h
    apply Nat.mul_le_mul_right
    apply hshift
    exact Nat.lt_of_lt_of_le h (Nat.mul_le_mul_right _ (Nat.min_le_left _ _))
  · rename_i hpaged
    rw [if_neg hpaged] at h
    apply Nat.mul_le_mul_right
    apply hshift
    omega

end sizes

/-- A power of two from 64 on is a number of cache lines. -/
theorem two_pow_eq_lines {k : ℕ} (hk : 6 ≤ k) : 2 ^ k = 2 ^ (k - 6) * CACHELINE_SIZE := by
  have h64 : CACHELINE_SIZE = 2 ^ 6 := rfl
  rw [h64, ← Nat.pow_add, Nat.sub_add_cancel hk]

/-- All placeholders get an address, and no lookup is out of range. -/
theorem allocate_mem_addrs_total {k : ℕ} (hpages : 1 ≤ page_multiplier) (hk : 6 ≤ k)
    (shuffle : Shuffle ℕ) (lines : List (List Stmt)) :
    ∃ lines', allocate_mem_addrs page_multiplier shuffle lines (2 ^ k) (num_memaddrs lines) =
      .ok lines' := by
  apply place_lines_total
  rw [length_rand_cacheline_indices, Nat.zero_add]
  exact num_mem_accesses_le (Nat.two_pow_pos _) (two_pow_eq_lines hk) hpages

/-- The addresses in the lines, when there were none before. -/
theorem offset_add_le {k num_mem_accesses : ℕ} (hk : 6 ≤ k)
    (h : allocate_mem_addrs page_multiplier shuffle lines (2 ^ k) num_mem_accesses = .ok lines')
    (hlines : ∀ line ∈ lines, ∀ offset, ¬ Offset line offset) (hl : line' ∈ lines') {offset : ℕ}
    (hoffset : Offset line' offset) :
    offset + CACHELINE_SIZE ≤ shift_size page_multiplier (2 ^ k) num_mem_accesses := by
  obtain ⟨line, hline, hplaced⟩ := exists_of_forall₂ (place_lines_placed h) hl
  rcases hplaced.offsets offset hoffset with hold | ⟨index, hindex, rfl⟩
  · exact absurd hold (hlines line hline offset)
  · exact mem_addr_add_le (Nat.two_pow_pos _) (two_pow_eq_lines hk)
      (mem_rand_cacheline_indices hindex)

/-- Without pages, a turn works on a cache line for each access, up to the whole size. -/
theorem num_indices_eq {page_multiplier mem_size : ℕ}
    (hpages : mem_size < PAGED_SIZE ∨ page_multiplier = 1) (num_mem_accesses : ℕ) :
    num_indices page_multiplier mem_size num_mem_accesses =
      num_cachelines_in_loop mem_size num_mem_accesses := by
  unfold num_indices
  split
  · rename_i hpaged
    rw [hpages.resolve_left (Nat.not_lt.mpr hpaged), Nat.mul_one]
  · rfl

theorem shift_size_eq {page_multiplier mem_size : ℕ}
    (hpages : mem_size < PAGED_SIZE ∨ page_multiplier = 1) (num_mem_accesses : ℕ) :
    shift_size page_multiplier mem_size num_mem_accesses =
      num_cachelines_in_loop mem_size num_mem_accesses * CACHELINE_SIZE := by
  unfold shift_size num_cachelines_in_loop
  split
  · rename_i hpaged
    rw [hpages.resolve_left (Nat.not_lt.mpr hpaged), Nat.mul_one]
  · rfl

/-- Without pages, the addresses in the lines are those of the first cache lines, whatever the
shuffle. -/
theorem offset_iff {k : ℕ} (hk : 6 ≤ k) (hpages : 2 ^ k < PAGED_SIZE ∨ page_multiplier = 1)
    (h : allocate_mem_addrs page_multiplier shuffle lines (2 ^ k) (num_memaddrs lines) = .ok lines')
    (hlines : ∀ line ∈ lines, ∀ offset, ¬ Offset line offset) (offset : ℕ) :
    (∃ line' ∈ lines', Offset line' offset) ↔
      ∃ i < num_cachelines_in_loop (2 ^ k) (num_memaddrs lines), offset = i * CACHELINE_SIZE := by
  have hindices := num_indices_eq hpages (num_memaddrs lines)
  have haddr : ∀ i < num_cachelines_in_loop (2 ^ k) (num_memaddrs lines),
      mem_addr (2 ^ k) i = i * CACHELINE_SIZE := by
    intro i hi
    have hlines : 2 ^ k / CACHELINE_SIZE = 2 ^ (k - 6) := by
      rw [two_pow_eq_lines hk, Nat.mul_div_cancel _ (by decide)]
    unfold num_cachelines_in_loop at hi
    rw [hlines] at hi
    rw [mem_addr_eq (two_pow_eq_lines hk), Nat.mod_eq_of_lt (by omega)]
  constructor
  · rintro ⟨line', hl, hoffset⟩
    obtain ⟨line, hline, hplaced⟩ := exists_of_forall₂ (place_lines_placed h) hl
    rcases hplaced.offsets offset hoffset with hold | ⟨index, hindex, rfl⟩
    · exact absurd hold (hlines line hline offset)
    · have hlt := mem_rand_cacheline_indices hindex
      rw [hindices] at hlt
      exact ⟨index, hlt, haddr index hlt⟩
  · rintro ⟨i, hi, rfl⟩
    rw [← hindices] at hi
    obtain ⟨j, hj, hget⟩ := exists_rand_cacheline_index shuffle hi
    rw [hindices] at hi hj
    have hcount : j < 0 + num_memaddrs lines := by
      unfold num_cachelines_in_loop at hj
      omega
    obtain ⟨index, hindex, line', hl, hoffset⟩ := place_lines_used h (Nat.zero_le j) hcount
    rw [hget] at hindex
    cases hindex
    rw [haddr i hi] at hoffset
    exact ⟨line', hl, hoffset⟩

end ditto.assembly_generator
