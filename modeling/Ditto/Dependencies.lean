-- The dependencies between the instructions. For each read and write the
-- analyzer looks for the access before it, in the block or behind its start,
-- and adds the executions of the block at the distance to it.
import Ditto.RegAccess

namespace ditto.data_dependency_analyzer

/-! ## The scan of a list of instructions -/

/-- The instruction `l[i - 1]` behind the loop that stops at the first index not below
`inst_idx`. Without a stop `i` is left at the last index, and index -1 is the last one. -/
def prev_inst_idx (l : List ℕ) (inst_idx : ℕ) : Option ℕ :=
  let i := (l.findIdx? (inst_idx ≤ ·)).getD (l.length - 1)
  if i = 0 then l.getLast? else l[i - 1]?

/-- The largest item of a list below `i`. -/
structure IsNearest (l : List ℕ) (i m : ℕ) : Prop where
  mem : m ∈ l
  lt : m < i
  le : ∀ x ∈ l, x < i → x ≤ m

theorem IsNearest.unique {l : List ℕ} {i m m' : ℕ} (h : IsNearest l i m) (h' : IsNearest l i m') :
    m = m' :=
  le_antisymm (h'.le m h.mem h.lt) (h.le m' h'.mem h'.lt)

/-- The scan stops, or the list has one item, or its last two items are equal. -/
def ScanEnds (l : List ℕ) (i : ℕ) : Prop :=
  (∃ x ∈ l, i ≤ x) ∨ l.length = 1 ∨ l[l.length - 2]? = l[l.length - 1]?

instance (l : List ℕ) (i : ℕ) : Decidable (ScanEnds l i) := inferInstanceAs (Decidable (_ ∨ _))

/-- The items of a sorted list are ordered as their indices. -/
theorem getElem_le_of_sorted {l : List ℕ} (hl : l.Pairwise (· ≤ ·)) {j k : ℕ} (hjk : j ≤ k)
    (hk : k < l.length) : l[j] ≤ l[k] := by
  rcases hjk.lt_or_eq with hlt | rfl
  · exact List.pairwise_iff_getElem.mp hl j k (by omega) hk hlt
  · exact le_rfl

/-- Where the scan stops, it has the largest item below `i`. -/
theorem prev_of_stop {l : List ℕ} (hl : l.Pairwise (· ≤ ·)) {i : ℕ} (hlow : ∃ x ∈ l, x < i)
    (hstop : ∃ x ∈ l, i ≤ x) : ∃ m, prev_inst_idx l i = some m ∧ IsNearest l i m := by
  have hfind : (l.findIdx? (i ≤ ·)).isSome := by
    rw [List.findIdx?_isSome, List.any_eq_true]
    simpa using hstop
  obtain ⟨k, hk⟩ := Option.isSome_iff_exists.mp hfind
  obtain ⟨hklen, hge, hbefore⟩ := List.findIdx?_eq_some_iff_getElem.mp hk
  simp only [decide_eq_true_eq, not_le] at hge hbefore
  -- An item below `i` has an index below `k`.
  have hindex : ∀ j (hj : j < l.length), l[j] < i → j < k := by
    intro j hj hlt
    by_contra hkj
    have := getElem_le_of_sorted hl (not_lt.mp hkj) hj
    omega
  have hkpos : k ≠ 0 := by
    obtain ⟨x, hx, hxi⟩ := hlow
    obtain ⟨j, hj, rfl⟩ := List.mem_iff_getElem.mp hx
    have := hindex j hj hxi
    omega
  refine ⟨l[k - 1], ?_, List.getElem_mem _, hbefore (k - 1) (by omega), ?_⟩
  · simp only [prev_inst_idx, hk, Option.getD_some]
    rw [if_neg hkpos, List.getElem?_eq_getElem]
  · intro x hx hxi
    obtain ⟨j, hj, rfl⟩ := List.mem_iff_getElem.mp hx
    have := hindex j hj hxi
    exact getElem_le_of_sorted hl (by omega) (by omega)

/-- Where it does not stop, the largest item is the last one, and the scan has the one before. -/
theorem prev_of_no_stop {l : List ℕ} (hl : l.Pairwise (· ≤ ·)) {i : ℕ} (hne : l ≠ [])
    (hstop : ∀ x ∈ l, x < i) : ∃ m, prev_inst_idx l i = some m ∧
      (IsNearest l i m ↔ l.length = 1 ∨ l[l.length - 2]? = l[l.length - 1]?) := by
  have hlen : 0 < l.length := List.length_pos_iff.mpr hne
  have hfind : l.findIdx? (i ≤ ·) = none := by
    rw [List.findIdx?_eq_none_iff]
    simpa using hstop
  have hlast : IsNearest l i (l[l.length - 1]) := by
    refine ⟨List.getElem_mem _, hstop _ (List.getElem_mem _), fun x hx _ => ?_⟩
    obtain ⟨j, hj, rfl⟩ := List.mem_iff_getElem.mp hx
    exact getElem_le_of_sorted hl (by omega) (by omega)
  by_cases hone : l.length = 1
  · refine ⟨l[l.length - 1], ?_, iff_of_true hlast (.inl hone)⟩
    simp only [prev_inst_idx, hfind, Option.getD_none]
    rw [if_pos (by omega), List.getLast?_eq_getElem?, List.getElem?_eq_getElem]
  · refine ⟨l[l.length - 2], ?_, ?_⟩
    · simp only [prev_inst_idx, hfind, Option.getD_none]
      rw [if_neg (by omega), Nat.sub_sub, List.getElem?_eq_getElem]
    · rw [or_iff_right hone, List.getElem?_eq_getElem (by omega : l.length - 2 < l.length),
        List.getElem?_eq_getElem (by omega : l.length - 1 < l.length), Option.some.injEq]
      exact ⟨fun h => h.unique hlast, fun h => h ▸ hlast⟩

theorem prev_inst_idx_spec {l : List ℕ} (hl : l.Pairwise (· ≤ ·)) {i : ℕ}
    (hlow : ∃ x ∈ l, x < i) :
    ∃ m, prev_inst_idx l i = some m ∧ (IsNearest l i m ↔ ScanEnds l i) := by
  by_cases hstop : ∃ x ∈ l, i ≤ x
  · obtain ⟨m, hm, hnear⟩ := prev_of_stop hl hlow hstop
    exact ⟨m, hm, iff_of_true hnear (.inl hstop)⟩
  · obtain ⟨x, hx, -⟩ := hlow
    have hall : ∀ x ∈ l, x < i := fun x hx => not_le.mp fun hle => hstop ⟨x, hx, hle⟩
    obtain ⟨m, hm, hnear⟩ := prev_of_no_stop hl (List.ne_nil_of_mem hx) hall
    exact ⟨m, hm, by rw [hnear, ScanEnds, or_iff_right hstop]⟩

/-! ## The analysis -/

/-- What the analysis reads: the graph, the executions and the accesses of each block. -/
structure Profile where
  cfg : Cfg
  insts : ℕ → ℤ
  executions : ℕ → ℚ
  inst_regs : ℕ → List InstRegs
  max_bb_depth : ℤ
  bins : List ℤ

def Profile.block (p : Profile) (bb : ℕ) : BlockRegs := file_block (p.inst_regs bb)

/-- The part that the walk back over the blocks reads. -/
def Profile.analyzer (p : Profile) : Analyzer where
  cfg := p.cfg
  insts := p.insts
  reg_insts bb slot := if bb ∈ p.cfg.nodes then (p.block bb).reg_insts slot else []
  max_bb_depth := p.max_bb_depth
  blocks := by
    intro bb slot h
    by_contra hbb
    exact h (if_neg hbb)

/-- A dependency: a read after a write, a write after a read, or a write after a write. -/
inductive Dep
  | raw | war | waw
deriving DecidableEq

/-- The access that has the dependency. -/
def Dep.later : Dep → RW
  | .raw => .rd
  | .war | .waw => .wr

/-- The access that it is on. -/
def Dep.earlier : Dep → RW
  | .war => .rd
  | .raw | .waw => .wr

/-- A register of an instruction, and the dependency that is looked for. -/
structure Turn where
  dep : Dep
  bb : ℕ
  inst_idx : ℕ
  reg : GpReg

/-- The instructions of the block that the access may depend on. -/
def Profile.sources (p : Profile) (turn : Turn) : List ℕ :=
  (p.block turn.bb).reg_insts ⟨turn.reg, turn.dep.earlier⟩

/-- The distances to the accesses in the blocks before. -/
def tmp_distribution (p : Profile) (T : Tables) (turn : Turn) : Table :=
  (p.cfg.predecessors turn.bb).foldl (fun tmp parent =>
    (T (parent, ⟨turn.reg, turn.dep.earlier⟩)).entries.foldl (fun tmp e =>
      let executions := p.executions turn.bb * p.cfg.backward_prob parent turn.bb * e.2
      let dist : ℤ := e.1 + turn.inst_idx
      tmp.set dist (tmp.val dist + executions)) tmp) .empty

/-- The body of the three loops over registers, which differ in the two accesses. -/
def add_dependency (p : Profile) (T : Tables) (turn : Turn) (dist : Table) : Table :=
  match (p.sources turn).head? with
  | none => merge_distribution dist (tmp_distribution p T turn)
  | some first =>
    if turn.inst_idx ≤ first then merge_distribution dist (tmp_distribution p T turn)
    else
      match prev_inst_idx (p.sources turn) turn.inst_idx with
      | none => dist
      | some prev =>
        let d : ℤ := turn.inst_idx - prev
        dist.set d (dist.val d + p.executions turn.bb)

/-- The distributions `raw_distribution`, `war_distribution` and `waw_distribution`. -/
abbrev Distributions := Dep → Table

def take_turn (p : Profile) (T : Tables) (ds : Distributions) (turn : Turn) : Distributions :=
  Function.update ds turn.dep (add_dependency p T turn (ds turn.dep))

/-- The turns for the registers of an instruction. -/
def turns_of (bb inst_idx : ℕ) (regs : RW → List GpReg) : List Turn :=
  ((regs .rd).map fun reg => ⟨.raw, bb, inst_idx, reg⟩) ++
    (regs .wr).flatMap fun reg => [⟨.war, bb, inst_idx, reg⟩, ⟨.waw, bb, inst_idx, reg⟩]

def add_inst_dependencies (p : Profile) (T : Tables) (bb : ℕ) (ds : Distributions)
    (inst_idx : ℕ) : Except PyError Distributions :=
  match (p.block bb).inst_regs[inst_idx]? with
  | none => .error .keyError
  | some regs => .ok ((turns_of bb inst_idx regs).foldl (take_turn p T) ds)

/-- The distributions before they are put into bins. -/
def dependencies (p : Profile) : Except PyError Distributions :=
  let T := basic_block_reg_dep_distances p.analyzer
  p.cfg.nodes.foldlM (fun ds bb =>
    (List.range (p.insts bb).toNat).foldlM (add_inst_dependencies p T bb) ds) fun _ => .empty

/-- The first of the bins that are closest to a distance. -/
def closest (bins : List ℤ) (k : ℤ) : Except PyError ℤ :=
  match bins with
  | [] => .error .valueError
  | b :: bins =>
    .ok (bins.foldl (fun best b => if (b - k).natAbs < (best - k).natAbs then b else best) b)

def bin_distribution (dist : Table) (bins : List ℤ) : Except PyError Table := do
  let ret ← dist.entries.foldlM (fun (ret : Table) e => do
    let binned_k ← closest bins e.1
    return ret.set binned_k (ret.val binned_k + e.2)) (bins.foldl (fun ret k => ret.set k 0) .empty)
  if ret.entries ≠ [] ∧ ret.total = 0 then .error .zeroDivisionError
  else return ret.mapVal fun _ v => v / ret.total

def run_analysis (p : Profile) : Except PyError (Table × Table × Table) := do
  let ds ← dependencies p
  let raw ← bin_distribution (ds .raw) p.bins
  let war ← bin_distribution (ds .war) p.bins
  let waw ← bin_distribution (ds .waw) p.bins
  return (raw, war, waw)

/-! ## Turns -/

/-- An instruction of a block has the register of a turn. -/
structure Profile.IsTurn (p : Profile) (turn : Turn) : Prop where
  node : turn.bb ∈ p.cfg.nodes
  lt : turn.inst_idx < (p.insts turn.bb).toNat
  reg : ∃ regs, (p.block turn.bb).inst_regs[turn.inst_idx]? = some regs ∧
    turn.reg ∈ regs turn.dep.later

theorem mem_turns_of {bb inst_idx : ℕ} {regs : RW → List GpReg} {turn : Turn} :
    turn ∈ turns_of bb inst_idx regs ↔
      turn.bb = bb ∧ turn.inst_idx = inst_idx ∧ turn.reg ∈ regs turn.dep.later := by
  obtain ⟨dep, bb', inst_idx', reg⟩ := turn
  rw [turns_of, List.mem_append, List.mem_map, List.mem_flatMap]
  constructor
  · rintro (⟨r, hr, heq⟩ | ⟨r, hr, heq⟩)
    · cases heq
      exact ⟨rfl, rfl, hr⟩
    · rcases List.mem_pair.mp heq with heq | heq <;> cases heq <;> exact ⟨rfl, rfl, hr⟩
  · rintro ⟨rfl, rfl, hr⟩
    cases dep with
    | raw => exact .inl ⟨reg, hr, rfl⟩
    | war => exact .inr ⟨reg, hr, List.mem_pair.mpr (.inl rfl)⟩
    | waw => exact .inr ⟨reg, hr, List.mem_pair.mpr (.inr rfl)⟩

/-- The turns of the loops, in their order. -/
def Profile.turns (p : Profile) : List Turn :=
  p.cfg.nodes.flatMap fun bb => (List.range (p.insts bb).toNat).flatMap fun inst_idx =>
    ((p.block bb).inst_regs[inst_idx]?.map (turns_of bb inst_idx)).getD []

theorem Profile.mem_turns {p : Profile} {turn : Turn} : turn ∈ p.turns ↔ p.IsTurn turn := by
  unfold turns
  simp only [List.mem_flatMap, List.mem_range]
  constructor
  · rintro ⟨bb, hbb, inst_idx, hlt, hturn⟩
    cases hregs : (p.block bb).inst_regs[inst_idx]? with
    | none => simp [hregs] at hturn
    | some regs =>
      rw [hregs, Option.map_some, Option.getD_some, mem_turns_of] at hturn
      obtain ⟨rfl, rfl, hreg⟩ := hturn
      exact ⟨hbb, hlt, regs, hregs, hreg⟩
  · rintro ⟨hnode, hlt, regs, hregs, hreg⟩
    refine ⟨turn.bb, hnode, turn.inst_idx, hlt, ?_⟩
    rw [hregs, Option.map_some, Option.getD_some]
    exact mem_turns_of.mpr ⟨rfl, rfl, hreg⟩

/-- A loop whose body goes over lists of turns goes over one list of turns. -/
theorem foldlM_turns {α : Type} {p : Profile} {T : Tables} {turns : α → List Turn}
    {f : Distributions → α → Except PyError Distributions} {l : List α}
    (hf : ∀ x ∈ l, ∀ ds ds', f ds x = .ok ds' → ds' = (turns x).foldl (take_turn p T) ds)
    {ds ds' : Distributions} (h : l.foldlM f ds = .ok ds') :
    ds' = (l.flatMap turns).foldl (take_turn p T) ds := by
  induction l generalizing ds with
  | nil =>
    cases h
    rfl
  | cons x l ih =>
    rw [List.foldlM_cons] at h
    obtain ⟨mid, hmid, h⟩ := PyError.ok_of_bind h
    rw [ih (fun y hy => hf y (List.mem_cons_of_mem _ hy)) h, hf x List.mem_cons_self ds mid hmid,
      List.flatMap_cons, List.foldl_append]

/-- The distributions of a run are what its turns add, one after the other. -/
theorem dependencies_eq_foldl {p : Profile} {ds : Distributions} (h : dependencies p = .ok ds) :
    ds = p.turns.foldl (take_turn p (basic_block_reg_dep_distances p.analyzer)) fun _ => .empty := by
  refine foldlM_turns (fun bb _ ds ds' h => ?_) h
  refine foldlM_turns (fun inst_idx _ ds ds' h => ?_) h
  unfold add_inst_dependencies at h
  cases hregs : (p.block bb).inst_regs[inst_idx]? with
  | none =>
    rw [hregs] at h
    cases h
  | some regs =>
    rw [hregs] at h
    cases h
    rfl

/-- The list of a register is in the order of the instructions. -/
theorem sorted_reg_insts (regs : List InstRegs) (slot : Slot) :
    ((file_block regs).reg_insts slot).Pairwise (· ≤ ·) := by
  induction regs using List.reverseRecOn with
  | nil => exact .nil
  | append_singleton regs r ih =>
    have hlen : (file_block regs).inst_regs.length = regs.length := by
      rw [inst_regs_file_block, List.length_map]
    rw [file_block_concat, file_inst, List.pairwise_append, hlen]
    refine ⟨ih, ?_, ?_⟩
    · rw [List.pairwise_map]
      exact List.pairwise_of_forall fun _ _ => le_rfl
    · intro k hk k' hk'
      obtain ⟨-, -, rfl⟩ := List.mem_map.mp hk'
      obtain ⟨r', hr', -⟩ := (mem_reg_insts_iff regs slot k).mp hk
      exact (List.getElem?_eq_some_iff.mp hr').1.le

/-- The instruction of a write is among the writes. -/
theorem mem_sources_of_waw {p : Profile} {turn : Turn} (hturn : p.IsTurn turn)
    (hdep : turn.dep = .waw) : turn.inst_idx ∈ p.sources turn := by
  obtain ⟨regs, hregs, hreg⟩ := hturn.reg
  rw [Profile.block, inst_regs_file_block, List.getElem?_map] at hregs
  obtain ⟨r, hr, rfl⟩ := Option.map_eq_some_iff.mp hregs
  rw [hdep] at hreg
  obtain ⟨name, hname, hentry⟩ := List.mem_filterMap.mp (List.mem_dedup.mp hreg)
  rw [Profile.sources, Profile.block, mem_reg_insts_iff, hdep]
  exact ⟨r, hr, name, hname, hentry⟩

/-- With an access below it in the block, a turn adds the executions of the block at one
distance. -/
theorem add_dependency_of_low {p : Profile} {T : Tables} {turn : Turn}
    (hlow : ∃ x ∈ p.sources turn, x < turn.inst_idx) {m : ℕ}
    (hm : prev_inst_idx (p.sources turn) turn.inst_idx = some m) (dist : Table) :
    add_dependency p T turn dist =
      dist.set (turn.inst_idx - m) (dist.val (turn.inst_idx - m) + p.executions turn.bb) := by
  obtain ⟨x, hx, hxi⟩ := hlow
  have hsorted : (p.sources turn).Pairwise (· ≤ ·) := sorted_reg_insts _ _
  unfold add_dependency
  rw [hm]
  cases hl : p.sources turn with
  | nil =>
    rw [hl] at hx
    cases hx
  | cons first rest =>
    rw [hl] at hx hsorted
    have hfirst : first ≤ x := by
      rcases List.mem_cons.mp hx with rfl | hx
      · exact le_rfl
      · exact List.rel_of_pairwise_cons hsorted hx
    simp only [List.head?_cons]
    rw [if_neg (by omega)]

/-- A turn adds the executions of its block at the distance to the nearest access below it. -/
def Profile.AddsNearest (p : Profile) (turn : Turn) : Prop :=
  ∃ m, IsNearest (p.sources turn) turn.inst_idx m ∧ ∀ T dist, add_dependency p T turn dist =
    dist.set (turn.inst_idx - m) (dist.val (turn.inst_idx - m) + p.executions turn.bb)

/-! ## The laws -/

/-- Each register of an instruction is a turn of the run. The distance that it adds is the one to
the nearest access exactly for writes after writes, and where the scan ends well: the instruction
or one behind it is in the list, or the list has one item, or its last two items are equal. -/
theorem distances_are_nearest_iff (p : Profile) (turn : Turn) (hturn : p.IsTurn turn)
    (hlow : ∃ x ∈ p.sources turn, x < turn.inst_idx) :
    (p.AddsNearest turn ↔ turn.dep = .waw ∨ ScanEnds (p.sources turn) turn.inst_idx) ∧
    turn ∈ p.turns ∧ ∀ ds, dependencies p = .ok ds →
      ds = p.turns.foldl (take_turn p (basic_block_reg_dep_distances p.analyzer))
        fun _ => .empty := by
  refine ⟨?_, Profile.mem_turns.mpr hturn, fun ds => dependencies_eq_foldl⟩
  have hsorted : (p.sources turn).Pairwise (· ≤ ·) := sorted_reg_insts _ _
  obtain ⟨m, hm, hnear⟩ := prev_inst_idx_spec hsorted hlow
  have hadds : p.AddsNearest turn ↔ IsNearest (p.sources turn) turn.inst_idx m := by
    constructor
    · rintro ⟨m', hnear', hadd⟩
      -- On an empty table the only key tells the two distances apart.
      have htable := (add_dependency_of_low hlow hm .empty).symm.trans
        (hadd (fun _ => .empty) .empty)
      have hkey : (turn.inst_idx : ℤ) - m ∈ (PyDict.empty.set ((turn.inst_idx : ℤ) - m')
          (PyDict.empty.val ((turn.inst_idx : ℤ) - m') + p.executions turn.bb)).keys := by
        rw [← htable, PyDict.mem_keys_set]
        exact .inl rfl
      have hdist : (turn.inst_idx : ℤ) - m = turn.inst_idx - m' := by
        rw [PyDict.mem_keys_set] at hkey
        simpa using hkey
      have : m' = m := by omega
      exact this ▸ hnear'
    · exact fun hnear => ⟨m, hnear, fun T dist => add_dependency_of_low hlow hm dist⟩
  rw [hadds, hnear]
  refine ⟨.inr, ?_⟩
  rintro (hdep | hends)
  · exact .inl ⟨turn.inst_idx, mem_sources_of_waw hturn hdep, le_rfl⟩
  · exact hends

/-- The profile of one block that runs once. -/
def one_block (regs : List InstRegs) : Profile where
  cfg := {
    nodes := [0]
    predecessors := fun _ => []
    backward_prob := fun _ _ => 0
    nodup_nodes := List.nodup_singleton 0
    nodup_predecessors := fun _ => List.nodup_nil
    closed := by simp
    nonneg := by simp
    sum_one := by simp }
  insts _ := regs.length
  executions _ := 1
  inst_regs _ := regs
  max_bb_depth := 256
  bins := [1, 2, 4, 8, 16, 32, 64, 128, 256, 512, 1024]

/-- For `mov rax, rcx; mov rax, rdx; mov rbx, rax; mov rax, rcx` the scan stops at the last write,
and the read of `rax` is put at the distance to the second one. -/
theorem distances_are_nearest_before_a_third_write :
    let p := one_block [⟨["rcx".toList], ["rax".toList]⟩, ⟨["rdx".toList], ["rax".toList]⟩,
      ⟨["rax".toList], ["rbx".toList]⟩, ⟨["rcx".toList], ["rax".toList]⟩]
    let turn : Turn := ⟨.raw, 0, 2, .a⟩
    p.IsTurn turn ∧ p.sources turn = [0, 1, 3] ∧ p.AddsNearest turn ∧
      (dependencies p).map (fun ds => (ds .raw).entries) = .ok [(1, 1)] := by
  intro p turn
  have hturn : p.IsTurn turn := ⟨List.mem_singleton_self 0, by decide, _, rfl, by decide +kernel⟩
  have hlow : ∃ x ∈ p.sources turn, x < turn.inst_idx := by decide +kernel
  have hends : ScanEnds (p.sources turn) turn.inst_idx := by decide +kernel
  exact ⟨hturn, by decide +kernel, (distances_are_nearest_iff p turn hturn hlow).1.mpr (.inr hends),
    by decide +kernel⟩

/-- For `mov rax, rcx; mov rax, rdx; mov rbx, rax` the read of `rax` is put at distance 2, the
distance to the first write. -/
theorem read_after_two_writes_takes_the_first :
    let p := one_block [⟨["rcx".toList], ["rax".toList]⟩, ⟨["rdx".toList], ["rax".toList]⟩,
      ⟨["rax".toList], ["rbx".toList]⟩]
    let turn : Turn := ⟨.raw, 0, 2, .a⟩
    p.IsTurn turn ∧ IsNearest (p.sources turn) 2 1 ∧ ¬ p.AddsNearest turn ∧
      (dependencies p).map (fun ds => (ds .raw).entries) = .ok [(2, 1)] := by
  intro p turn
  have hsources : p.sources turn = [0, 1] := by decide +kernel
  have hprev : prev_inst_idx (p.sources turn) turn.inst_idx = some 0 := by decide +kernel
  have hlow : ∃ x ∈ p.sources turn, x < turn.inst_idx := by decide +kernel
  have hnear : IsNearest (p.sources turn) 2 1 := by
    rw [hsources]
    exact ⟨by decide, by decide, by decide⟩
  refine ⟨⟨List.mem_singleton_self 0, by decide, _, rfl, by decide +kernel⟩, hnear, ?_,
    by decide +kernel⟩
  rintro ⟨m, hm, hadd⟩
  obtain rfl : m = 1 := hm.unique hnear
  have htable := (add_dependency_of_low hlow hprev .empty).symm.trans
    (hadd (fun _ => .empty) .empty)
  exact absurd (congrArg PyDict.keys htable) (by decide +kernel)

end ditto.data_dependency_analyzer
