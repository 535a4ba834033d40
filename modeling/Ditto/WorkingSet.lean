-- The data accesses of the generated code. A block moves its address register
-- through the working set, goes back to the base when it is above the top,
-- and saves the address for the next request. No access leaves the working
-- set of its block, whatever the requests of a thread are.
import Ditto.BlockAsm
import Mathlib.Data.BitVec

open LabelMachine
open ditto.data_dependency_analyzer (GpReg)

namespace ditto.assembly_generator

/-! ## The machine -/

/-- The registers, the operands `%0` to `%5`, and the outcome of the last comparison: `less`
is the sign of its exact result. -/
structure Cpu where
  regs : GpReg → BitVec 64
  args : Fin 6 → BitVec 64
  less : Bool
  zero : Bool

def Cpu.value (c : Cpu) : Operand → BitVec 64
  | .reg (.gp r) => c.regs r
  | .imm n => BitVec.ofNat 64 n
  | .arg k => c.args k
  | .argMem k offset => c.args k + BitVec.ofNat 64 offset
  | _ => 0

def Cpu.write (c : Cpu) (v : BitVec 64) : Operand → Cpu
  | .reg (.gp r) => { c with regs := Function.update c.regs r v }
  | .arg k => { c with args := Function.update c.args k v }
  | _ => c

/-- The instructions around the body. `tsc` is the time that `rdtsc` reads. -/
def Cpu.run (tsc : BitVec 64) (c : Cpu) (i : Inst) : Cpu :=
  match i.op, i.operands with
  | .mov, [dst, src] | .lea, [dst, src] => c.write (c.value src) dst
  | .add, [dst, src] =>
    { c.write (c.value dst + c.value src) dst with
      less := decide ((c.value dst).toInt + (c.value src).toInt < 0)
      zero := decide (c.value dst + c.value src = 0) }
  | .cmp, [a, b] =>
    { c with
      less := (c.value a).slt (c.value b)
      zero := decide (c.value a = c.value b) }
  | .mul, [src] =>
    let product := (c.regs .a).toNat * (c.value src).toNat
    (c.write (BitVec.ofNat 64 product) (gp .a)).write (BitVec.ofNat 64 (product / 2 ^ 64)) (gp .d)
  | .rdtsc, [] => (c.write (tsc &&& 0xFFFFFFFF) (gp .a)).write (tsc >>> 32) (gp .d)
  | _, _ => c

-- Operands and instructions one by one, so that code is executed without unfolding all of them.
namespace Cpu

variable (c : Cpu) (v tsc : BitVec 64) (r : GpReg) (k : Fin 6) (n : ℕ) (dst src : Operand)

@[simp] theorem value_gp : c.value (gp r) = c.regs r := rfl

@[simp] theorem value_imm : c.value (.imm n) = BitVec.ofNat 64 n := rfl

@[simp] theorem value_arg : c.value (.arg k) = c.args k := rfl

@[simp] theorem value_argMem : c.value (.argMem k n) = c.args k + BitVec.ofNat 64 n := rfl

@[simp] theorem write_gp : c.write v (gp r) = { c with regs := Function.update c.regs r v } := rfl

@[simp] theorem write_arg : c.write v (.arg k) = { c with args := Function.update c.args k v } := rfl

@[simp] theorem run_mov : c.run tsc ⟨.mov, [dst, src]⟩ = c.write (c.value src) dst := rfl

@[simp] theorem run_lea : c.run tsc ⟨.lea, [dst, src]⟩ = c.write (c.value src) dst := rfl

@[simp] theorem run_add : c.run tsc ⟨.add, [dst, src]⟩ =
    { c.write (c.value dst + c.value src) dst with
      less := decide ((c.value dst).toInt + (c.value src).toInt < 0)
      zero := decide (c.value dst + c.value src = 0) } := rfl

@[simp] theorem run_cmp : c.run tsc ⟨.cmp, [dst, src]⟩ =
    { c with
      less := (c.value dst).slt (c.value src)
      zero := decide (c.value dst = c.value src) } := rfl

@[simp] theorem run_mul : c.run tsc ⟨.mul, [src]⟩ =
    (c.write (BitVec.ofNat 64 ((c.regs .a).toNat * (c.value src).toNat)) (gp .a)).write
      (BitVec.ofNat 64 ((c.regs .a).toNat * (c.value src).toNat / 2 ^ 64)) (gp .d) := rfl

@[simp] theorem run_rdtsc : c.run tsc ⟨.rdtsc, []⟩ =
    (c.write (tsc &&& 0xFFFFFFFF) (gp .a)).write (tsc >>> 32) (gp .d) := rfl

end Cpu

theorem Cpu.regs_write {c : Cpu} {v : BitVec 64} {o : Operand} {r : GpReg} (h : gp r ≠ o) :
    (c.write v o).regs r = c.regs r := by
  unfold Cpu.write
  split
  · rename_i r'
    have hr : r ≠ r' := fun hr => h (by rw [gp, hr])
    exact Function.update_of_ne hr _ _
  · rfl
  · rfl

/-- What a body does in its turns. It may change everything but the address register and
the operand `%2`. -/
structure Body where
  run : ℕ → Cpu → Cpu
  keeps_addr : ∀ n c, (run n c).regs ADDR_OFFSET_REG = c.regs ADDR_OFFSET_REG
  keeps_mem_data : ∀ n c, (run n c).args 2 = c.args 2

/-- The state of a block, with its turns and the addresses of its data accesses so far. -/
structure RunState where
  cpu : Cpu
  turn : ℕ
  accesses : List (BitVec 64)

/-- The code of a block has its body as one instruction. -/
inductive BlockInst
  | asm (i : Inst)
  | body

def machine (tsc : BitVec 64) (body : Body) (offsets : List ℕ) :
    Machine Label Cond BlockInst RunState where
  act
    | .inst (.asm i), s => { s with cpu := s.cpu.run tsc i }
    | .inst .body, s =>
      { cpu := body.run s.turn s.cpu
        turn := s.turn + 1
        accesses := s.accesses ++
          offsets.map fun offset => s.cpu.regs ADDR_OFFSET_REG + BitVec.ofNat 64 offset }
    | _, s => s
  holds
    | .le, s => s.cpu.less || s.cpu.zero
    | .l, s => s.cpu.less
    | .z, s => s.cpu.zero
    | .nz, s => !s.cpu.zero

@[simp] theorem act_asm (tsc : BitVec 64) (body : Body) (offsets : List ℕ) (i : Inst)
    (s : RunState) : (machine tsc body offsets).act (.inst (.asm i)) s =
      { s with cpu := s.cpu.run tsc i } := rfl

def AsmStatement.stmts (a : AsmStatement) : List Stmt := a.lines.flatten

def AsmBlock.program (blk : AsmBlock) : List (LabelMachine.Stmt Label Cond BlockInst) :=
  (blk.head.flatMap AsmStatement.stmts).map (LabelMachine.Stmt.mapInst .asm) ++
    .inst .body :: (blk.tail.flatMap AsmStatement.stmts).map (LabelMachine.Stmt.mapInst .asm)

/-- An operand at the address register. -/
def Operand.offset? : Operand → Option ℕ
  | .mem r offset => if r = ADDR_OFFSET_REG then some offset else none
  | _ => none

def AsmBlock.offsets (blk : AsmBlock) : List ℕ :=
  (line_operands (blk.body.flatMap AsmStatement.stmts)).filterMap Operand.offset?

/-! ## The thread -/

/-- The loop that fills `curr_mem_addrs`, as byte offsets into `mem_data`. -/
def init_offsets : ℕ → ℕ → ℕ → List ℕ
  | 0, _, _ => []
  | n + 1, i, curr_idx => 8 * curr_idx :: init_offsets n (i + 1) ((64 <<< i) / 8)

def init_mem_addrs (mem_data : BitVec 64) : List (BitVec 64) :=
  (init_offsets 23 0 0).map fun offset => mem_data + BitVec.ofNat 64 offset

/-- A block is entered with `mem_data` and its saved address as operands. -/
def Enters (mem_data addr : BitVec 64) (s : RunState) : Prop :=
  s.cpu.args 2 = mem_data ∧ s.cpu.args 3 = addr ∧ s.accesses = []

/-- The saved addresses of a thread after some requests. Each request runs a block of the
generator to its end. -/
inductive Thread (g : Generator) (mem_data : BitVec 64) : List (BitVec 64) → Prop
  | start : Thread g mem_data (init_mem_addrs mem_data)
  | request {addrs : List (BitVec 64)} {s : Submission} {d : BlockDraws} {blk : AsmBlock}
      {addr tsc : BitVec 64} {body : Body} {s₀ s₁ : RunState} :
      Thread g mem_data addrs → generate_asm_block g s d = .ok (some blk) →
      addrs[blk.mem_id]? = some addr → Enters mem_data addr s₀ →
      Reaches (machine tsc body blk.offsets) blk.program (blk.program, s₀) ([], s₁) →
      Thread g mem_data (addrs.set blk.mem_id (s₁.cpu.args 0))

/-! ## The offsets of a block -/

theorem stmts_body_statements (debug : Bool) (lines : List (List Stmt)) :
    (body_statements debug lines).flatMap AsmStatement.stmts = lines.flatten := by
  unfold body_statements
  split
  · rw [List.flatMap_map, ← List.flatten_filter_ne_nil]
    simp [plain_statement, AsmStatement.stmts, List.flatMap_def]
  · simp [plain_statement, AsmStatement.stmts]

theorem exists_line_of_offset {g : Generator} {s : Submission} {n : ℕ} {lines : List (List Stmt)}
    {offset : ℕ} (h : offset ∈ (block_text g s n lines).offsets) :
    ∃ line ∈ lines, Offset line offset := by
  unfold AsmBlock.offsets block_text at h
  rw [stmts_body_statements] at h
  obtain ⟨o, ho, hoffset⟩ := List.mem_filterMap.mp h
  have hmem : o = .mem ADDR_OFFSET_REG offset := by
    unfold Operand.offset? at hoffset
    split at hoffset
    · split at hoffset
      · rename_i hr
        cases hoffset
        rw [hr]
      · cases hoffset
    · cases hoffset
  obtain ⟨st, hst, ho⟩ := List.mem_flatMap.mp ho
  obtain ⟨line, hline, hst⟩ := List.mem_flatten.mp hst
  rw [hmem] at ho
  exact ⟨line, hline, List.mem_flatMap.mpr ⟨st, hst, ho⟩⟩

/-- Each access of a block starts at least a cache line below the end of the bytes by which
the block moves its address register. -/
theorem BlockFrom.offset_le {g : Generator} {s : Submission} {d : BlockDraws} {blk : AsmBlock}
    {k : ℕ} (h : BlockFrom g s d blk) (hk : 6 ≤ k) (hsize : s.mem_size = 2 ^ k) :
    ∃ n lines, blk = block_text g s n lines ∧
      ∀ offset ∈ blk.offsets, offset + 64 ≤ shift_size g.page_multiplier s.mem_size n := by
  obtain ⟨lines, lines', hlines, -, hplaced, rfl⟩ := h.lines
  refine ⟨_, lines', rfl, ?_⟩
  intro offset hoffset
  obtain ⟨line, hline, hoffset⟩ := exists_line_of_offset hoffset
  rw [hsize] at hplaced ⊢
  apply offset_add_le hk hplaced _ hline hoffset
  exact fun line hl => body_lines_no_offset hlines hl

/-! ## The assertions of a block -/

/-- The address is one of the first `bytes` bytes of the data, or the one behind them. -/
def Within (mem_data : BitVec 64) (bytes : ℕ) (a : BitVec 64) : Prop :=
  mem_data.toNat ≤ a.toNat ∧ a.toNat ≤ mem_data.toNat + bytes

/-- The size of the data of a thread. -/
def DATA_SIZE : ℕ := 256 * 1024 * 1024

/-- The accesses so far are in the working set, and the operand `%2` is `mem_data`. -/
def InWorkingSet (mem_data : BitVec 64) (mem_size : ℕ) (s : RunState) : Prop :=
  s.cpu.args 2 = mem_data ∧
    ∀ a ∈ s.accesses, mem_data.toNat ≤ a.toNat ∧ a.toNat + 8 ≤ mem_data.toNat + mem_size

/-- What holds of the address at each label. -/
def addrTable (mem_data : BitVec 64) (top : ℕ) : Label → RunState → Prop
  | ⟨.loop_start, _⟩, s => Within mem_data DATA_SIZE (s.cpu.regs ADDR_OFFSET_REG)
  | ⟨.bypass_reset, _⟩, s => Within mem_data top (s.cpu.regs ADDR_OFFSET_REG)
  | ⟨.end_func, _⟩, s => Within mem_data DATA_SIZE (s.cpu.args 0)
  | _, _ => False

/-! ### Addresses -/

section addresses

variable {mem_data a : BitVec 64} {mem_size shift offset : ℕ}

theorem toNat_add_ofNat {n : ℕ} (h : a.toNat + n < 2 ^ 64) :
    (a + BitVec.ofNat 64 n).toNat = a.toNat + n := by
  rw [BitVec.toNat_add, BitVec.toNat_ofNat, Nat.add_mod_mod, Nat.mod_eq_of_lt h]

/-- The signed comparison with the top is right for positive addresses. -/
theorem within_of_jle {top : ℕ} (hpos : mem_data.toNat + DATA_SIZE < 2 ^ 63) (htop : top ≤ DATA_SIZE)
    (ha : Within mem_data DATA_SIZE a)
    (hle : a.slt (mem_data + BitVec.ofNat 64 top) = true ∨ a = mem_data + BitVec.ofNat 64 top) :
    Within mem_data top a := by
  obtain ⟨hlow, hhigh⟩ := ha
  refine ⟨hlow, ?_⟩
  have hadd : (mem_data + BitVec.ofNat 64 top).toNat = mem_data.toNat + top :=
    toNat_add_ofNat (by omega)
  rcases hle with hlt | heq
  · rw [BitVec.slt_iff_toInt_lt, BitVec.toInt_eq_toNat_of_lt (by omega),
      BitVec.toInt_eq_toNat_of_lt (by omega), hadd] at hlt
    omega
  · rw [heq, hadd]

theorem within_self (top : ℕ) : Within mem_data top mem_data := ⟨le_refl _, Nat.le_add_right _ _⟩

/-- The address that a turn leaves is in the data. -/
theorem within_add_shift (hpos : mem_data.toNat + DATA_SIZE < 2 ^ 63) (hshift : shift ≤ mem_size)
    (hsize : mem_size ≤ DATA_SIZE) (ha : Within mem_data (mem_size - shift) a) :
    Within mem_data DATA_SIZE (a + BitVec.ofNat 64 shift) := by
  obtain ⟨hlow, hhigh⟩ := ha
  have hadd : (a + BitVec.ofNat 64 shift).toNat = a.toNat + shift := toNat_add_ofNat (by omega)
  unfold Within
  rw [hadd]
  omega

/-- An access at an address below the top is in the working set. -/
theorem access_in_working_set (hpos : mem_data.toNat + DATA_SIZE < 2 ^ 63) (hshift : shift ≤ mem_size)
    (hsize : mem_size ≤ DATA_SIZE) (ha : Within mem_data (mem_size - shift) a)
    (hoff : offset + 64 ≤ shift) :
    mem_data.toNat ≤ (a + BitVec.ofNat 64 offset).toNat ∧
      (a + BitVec.ofNat 64 offset).toNat + 8 ≤ mem_data.toNat + mem_size := by
  obtain ⟨hlow, hhigh⟩ := ha
  have hadd : (a + BitVec.ofNat 64 offset).toNat = a.toNat + offset := toNat_add_ofNat (by omega)
  rw [hadd]
  omega

end addresses

/-! ### The code -/

section block

variable {mem_data tsc : BitVec 64} {mem_size shift : ℕ} {offsets : List ℕ} {b : BlockId}
  {turns : ℕ} {body : Body}

/-- The code of a block. -/
def blockCode (b : BlockId) (mem_size shift turns : ℕ) :
    List (LabelMachine.Stmt Label Cond BlockInst) :=
  (init_stmts ++ rand_stmts ++ loop_stmts b mem_size shift).map (LabelMachine.Stmt.mapInst .asm) ++
    .inst .body :: (tail_stmts b shift turns).map (LabelMachine.Stmt.mapInst .asm)

theorem program_block_text (g : Generator) (s : Submission) (n : ℕ) (lines : List (List Stmt)) :
    (block_text g s n lines).program =
      blockCode s.id s.mem_size (shift_size g.page_multiplier s.mem_size n)
        (num_turns g.num_dynamic_insts s.num_static_insts).toNat := rfl

/-- An instruction that leaves the operands alone keeps the accesses. -/
theorem InWorkingSet.of_args {s : RunState} (h : InWorkingSet mem_data mem_size s) (c : Cpu)
    (hc : c.args 2 = s.cpu.args 2) : InWorkingSet mem_data mem_size { s with cpu := c } :=
  ⟨hc.trans h.1, h.2⟩

theorem InWorkingSet.act_body {s : RunState} (h : InWorkingSet mem_data mem_size s)
    (hpos : mem_data.toNat + DATA_SIZE < 2 ^ 63) (hshift : shift ≤ mem_size)
    (hsize : mem_size ≤ DATA_SIZE) (hoff : ∀ off ∈ offsets, off + 64 ≤ shift)
    (ha : Within mem_data (mem_size - shift) (s.cpu.regs ADDR_OFFSET_REG)) :
    InWorkingSet mem_data mem_size
      ((machine tsc body offsets).act (.inst .body) s) := by
  refine ⟨(body.keeps_mem_data _ _).trans h.1, ?_⟩
  intro a hmem
  rcases List.mem_append.mp hmem with hmem | hmem
  · exact h.2 a hmem
  · obtain ⟨off, hoffset, rfl⟩ := List.mem_map.mp hmem
    exact access_in_working_set hpos hshift hsize ha (hoff off hoffset)

theorem tableHolds_blockCode (hshift : shift ≤ mem_size) (hsize : mem_size ≤ DATA_SIZE)
    (hpos : mem_data.toNat + DATA_SIZE < 2 ^ 63) (hoff : ∀ off ∈ offsets, off + 64 ≤ shift) :
    TableHolds (machine tsc body offsets) (blockCode b mem_size shift turns)
      (InWorkingSet mem_data mem_size) (addrTable mem_data (mem_size - shift))
      (fun s => Within mem_data DATA_SIZE (s.cpu.args 0)) := by
  intro x hx s hs haddr
  simp only [blockCode, init_stmts, rand_stmts, loop_stmts, tail_stmts, List.map_cons,
    List.map_nil, LabelMachine.Stmt.mapInst, List.cons_append, List.nil_append, cells,
    List.mem_cons, List.not_mem_nil, or_false] at hx
  rcases hx with rfl | rfl | rfl | rfl
  · -- From the start of a turn: the address goes back to the base when it is above the top.
    have hP := hs.of_args
    have hturn : if (s.cpu.regs .r10).slt (s.cpu.args 2 + BitVec.ofNat 64 (mem_size - shift)) = true ∨
        s.cpu.regs .r10 = s.cpu.args 2 + BitVec.ofNat 64 (mem_size - shift) then
        Within mem_data (mem_size - shift) (s.cpu.regs .r10)
        else Within mem_data (mem_size - shift) (s.cpu.args 2) := by
      rw [hs.1]
      split
      · rename_i hle
        exact within_of_jle hpos (by omega) haddr hle
      · exact within_self _
    simpa [wlp, machine, hP, ADDR_OFFSET_REG, TOP_ADDR_REG, BASE_ADDR_REG, LOOP_IDX_REG, RAND_REG,
      addrTable, BlockId.label] using hturn
  · -- The body, and the end of the turn.
    refine ⟨hs, ?_⟩
    have ht : InWorkingSet mem_data mem_size ((machine tsc body offsets).act (.inst .body) s) :=
      hs.act_body hpos hshift hsize hoff haddr
    have haddr' : Within mem_data (mem_size - shift)
        (((machine tsc body offsets).act (.inst .body) s).cpu.regs .r10) := by
      have hkeeps := body.keeps_addr s.turn s.cpu
      simp only [machine]
      rw [← ADDR_OFFSET_REG, hkeeps]
      exact haddr
    generalize (machine tsc body offsets).act (.inst .body) s = t at ht haddr'
    have hP := ht.of_args
    have hmoved := within_add_shift hpos hshift hsize haddr'
    simpa [wlp, machine, hP, ADDR_OFFSET_REG, LOOP_IDX_REG, addrTable, BlockId.label] using hmoved
  · cases haddr
  · exact ⟨hs, haddr⟩

theorem wlp_blockCode {s : RunState} {addr : BitVec 64} (henters : Enters mem_data addr s)
    (haddr : Within mem_data DATA_SIZE addr) (top : ℕ) :
    wlp (machine tsc body offsets) (InWorkingSet mem_data mem_size) (addrTable mem_data top)
      (fun s => Within mem_data DATA_SIZE (s.cpu.args 0)) (blockCode b mem_size shift turns) s := by
  obtain ⟨hdata, hargs, hnone⟩ := henters
  have hs : InWorkingSet mem_data mem_size s := ⟨hdata, by simp [hnone]⟩
  have hP := hs.of_args
  rw [← hargs] at haddr
  simpa [blockCode, init_stmts, rand_stmts, loop_stmts, LabelMachine.Stmt.mapInst, wlp, machine,
    hs, hP, ADDR_OFFSET_REG, LOOP_IDX_REG, RAND_REG, POINTER_CHASE_REG, addrTable,
    BlockId.label] using haddr

end block

/-- Along every run of a block that starts with a saved address in the data, the accesses are
in the working set, and the address that it saves is in the data. -/
theorem BlockFrom.stays {g : Generator} {s : Submission} {d : BlockDraws} {blk : AsmBlock} {k : ℕ}
    {mem_data addr tsc : BitVec 64} {body : Body} {s₀ : RunState}
    {t : List (LabelMachine.Stmt Label Cond BlockInst) × RunState}
    (h : BlockFrom g s d blk) (hk : 6 ≤ k) (hk' : k ≤ 28)
    (hsize : s.mem_size = 2 ^ k) (hpos : mem_data.toNat + DATA_SIZE < 2 ^ 63)
    (haddr : Within mem_data DATA_SIZE addr) (henters : Enters mem_data addr s₀)
    (hr : Reaches (machine tsc body blk.offsets) blk.program (blk.program, s₀) t) :
    InWorkingSet mem_data s.mem_size t.2 ∧
      (t.1 = [] → Within mem_data DATA_SIZE (t.2.cpu.args 0)) := by
  obtain ⟨n, lines, hblk, hoff⟩ := h.offset_le hk hsize
  have hdata : s.mem_size ≤ DATA_SIZE := by
    rw [hsize]
    exact Nat.pow_le_pow_right (by decide) hk'
  rw [show blk.program = _ from hblk ▸ program_block_text g s n lines] at hr
  have hwlp := wlp_reaches (tableHolds_blockCode shift_size_le hdata hpos hoff)
    (wlp_blockCode henters haddr _) hr
  refine ⟨holds_of_wlp hwlp, ?_⟩
  intro hend
  rw [hend] at hwlp
  exact hwlp.2

/-! ## The laws -/

/-- The data sizes are powers of two from 64 bytes to 256 MiB. -/
def SizesOk (g : Generator) : Prop :=
  ∀ size ∈ g.dcache_stats.keys, ∃ k, 6 ≤ k ∧ k ≤ 28 ∧ size = 2 ^ k

theorem mem_id_lt {g : Generator} (h : SizesOk g) {size : ℕ} (hsize : size ∈ g.dcache_stats.keys) :
    g.dcache_stats.keys.idxOf size < 23 := by
  have hsub : g.dcache_stats.keys ⊆ (List.range 23).map fun i => 2 ^ (i + 6) := by
    intro size hsize
    obtain ⟨k, hk, hk', rfl⟩ := h size hsize
    apply List.mem_map.mpr
    exact ⟨k - 6, List.mem_range.mpr (by omega), by rw [Nat.sub_add_cancel hk]⟩
  have hnodup : g.dcache_stats.keys.Nodup := g.dcache_stats.nodup
  have hlen := (hnodup.subperm hsub).length_le
  rw [List.length_map, List.length_range] at hlen
  exact Nat.lt_of_lt_of_le (List.idxOf_lt_length_of_mem hsize) hlen

theorem init_offsets_le : ∀ offset ∈ init_offsets 23 0 0, offset ≤ DATA_SIZE := by
  decide

/-- Every saved address of a thread is in its data. -/
theorem Thread.within {g : Generator} {mem_data : BitVec 64} {addrs : List (BitVec 64)}
    (h : Thread g mem_data addrs) (hsizes : SizesOk g)
    (hpos : mem_data.toNat + DATA_SIZE < 2 ^ 63) :
    addrs.length = 23 ∧ ∀ a ∈ addrs, Within mem_data DATA_SIZE a := by
  induction h with
  | start =>
    refine ⟨List.length_map _, ?_⟩
    intro a ha
    obtain ⟨offset, hoffset, rfl⟩ := List.mem_map.mp ha
    have hle := init_offsets_le offset hoffset
    have hadd : (mem_data + BitVec.ofNat 64 offset).toNat = mem_data.toNat + offset :=
      toNat_add_ofNat (by omega)
    unfold Within
    rw [hadd]
    omega
  | request _ hblk haddr henters hr ih =>
    have hfrom := generate_asm_block_spec hblk
    obtain ⟨k, hk, hk', hsize⟩ := hsizes _ hfrom.mem_size_mem
    have hstays := hfrom.stays hk hk' hsize hpos
      (ih.2 _ (List.mem_of_getElem? haddr)) henters hr
    refine ⟨by rw [List.length_set, ih.1], ?_⟩
    intro a ha
    rcases List.mem_or_eq_of_mem_set ha with ha | rfl
    · exact ih.2 a ha
    · exact hstays.2 rfl

/-- No lookup of a cache line is out of range. From any state that the requests of a thread
can leave, and in any block of the generator, the saved address is there, and at every
moment of the run of the block its accesses are in its working set. -/
theorem accesses_stay_in_the_working_set (g : Generator) (hpages : 1 ≤ g.page_multiplier)
    (hsizes : SizesOk g) (mem_data : BitVec 64) (hpos : mem_data.toNat + DATA_SIZE < 2 ^ 63) :
    (∀ (shuffle : Shuffle ℕ) (lines : List (List Stmt)), ∀ size ∈ g.dcache_stats.keys,
      ∃ lines', allocate_mem_addrs g.page_multiplier shuffle lines size (num_memaddrs lines) =
        .ok lines') ∧
    ∀ addrs, Thread g mem_data addrs →
      ∀ s d blk, generate_asm_block g s d = .ok (some blk) →
        ∃ addr, addrs[blk.mem_id]? = some addr ∧
          ∀ tsc body s₀ t, Enters mem_data addr s₀ →
            Reaches (machine tsc body blk.offsets) blk.program (blk.program, s₀) t →
              ∀ a ∈ t.2.accesses,
                mem_data.toNat ≤ a.toNat ∧ a.toNat + 8 ≤ mem_data.toNat + s.mem_size := by
  constructor
  · intro shuffle lines size hsize
    obtain ⟨k, hk, -, rfl⟩ := hsizes size hsize
    exact allocate_mem_addrs_total hpages hk shuffle lines
  · intro addrs hthread s d blk hblk
    obtain ⟨hlen, hwithin⟩ := hthread.within hsizes hpos
    have hfrom := generate_asm_block_spec hblk
    obtain ⟨k, hk, hk', hsize⟩ := hsizes _ hfrom.mem_size_mem
    have hid : blk.mem_id < addrs.length := by
      obtain ⟨lines, lines', -, -, -, rfl⟩ := hfrom.lines
      rw [hlen]
      exact mem_id_lt hsizes hfrom.mem_size_mem
    refine ⟨addrs[blk.mem_id], List.getElem?_eq_getElem hid, ?_⟩
    intro tsc body s₀ t henters hr
    exact (hfrom.stays hk hk' hsize hpos (hwithin _ (List.getElem_mem hid)) henters hr).1.2

/-- Loads of a working set of one cache line. -/
def oneLine : Generator where
  num_reqs_per_iteration := 1024
  num_block_replicas := .empty
  num_asm_functions := 1
  num_dynamic_insts := 2
  num_reps := 0
  page_multiplier := 1
  dcache_stats := ⟨[(64, 1)], by decide⟩
  icache_stats := ⟨[(8, 1)], by decide⟩
  debug := false

def loadDraws : BlockDraws where
  insts _ := ⟨.op .base .mov_uncond .mem_r, 0, 0, false, 0, false⟩
  pieces := ⟨id, List.Perm.refl⟩
  distances _ := ⟨1, 1, 1⟩
  indices := ⟨id, List.Perm.refl⟩

def loadBlock : Submission := ⟨0, 0, 0, 64, 2, 1, 0, 1024⟩

theorem exists_block {g : Generator} {s : Submission} {d : BlockDraws}
    (h : (generate_asm_block g s d).toOption.join.isSome = true) :
    ∃ blk, generate_asm_block g s d = .ok (some blk) := by
  obtain ⟨blk, hblk⟩ := Option.isSome_iff_exists.mp h
  refine ⟨blk, ?_⟩
  generalize generate_asm_block g s d = r at hblk ⊢
  rcases r with err | blk'
  · cases hblk
  · rw [show blk' = some blk from hblk]

theorem loadBlock_ok : ∃ blk, generate_asm_block oneLine loadBlock loadDraws = .ok (some blk) :=
  exists_block (by decide +kernel)

theorem accesses_stay_in_the_working_set_of_one_line :
    ∃ blk, generate_asm_block oneLine loadBlock loadDraws = .ok (some blk) ∧
      ∃ addr, (init_mem_addrs 4096)[blk.mem_id]? = some addr ∧
        ∀ tsc body s₀ t, Enters 4096 addr s₀ →
          Reaches (machine tsc body blk.offsets) blk.program (blk.program, s₀) t →
            ∀ a ∈ t.2.accesses, (4096 : BitVec 64).toNat ≤ a.toNat ∧
              a.toNat + 8 ≤ (4096 : BitVec 64).toNat + 64 := by
  obtain ⟨blk, hblk⟩ := loadBlock_ok
  have hsizes : SizesOk oneLine := by
    intro size hsize
    obtain rfl : size = 64 := List.mem_singleton.mp hsize
    exact ⟨6, le_refl 6, by decide, rfl⟩
  have hlaw := accesses_stay_in_the_working_set oneLine (le_refl 1) hsizes 4096 (by decide)
  exact ⟨blk, hblk, hlaw.2 _ .start loadBlock loadDraws blk hblk⟩

end ditto.assembly_generator
