-- The sweep of a block through its working set. One turn of the loop goes
-- back to the base when the address register is above the top, reads the
-- cache lines from there on, and moves the register behind them. The lines
-- that some turns read are those of the abstract sweep.
import Ditto.WorkingSet
import Ditto.Lib.Sweep

open LabelMachine
open ditto.data_dependency_analyzer (GpReg)

namespace ditto.assembly_generator

/-! ## The turns of the loop -/

/-- The jump that closes a turn. -/
def atLoopJump : List (LabelMachine.Stmt Label Cond BlockInst) → Bool
  | .jcc .l _ :: _ => true
  | _ => false

/-- One turn, from behind the label of the loop to the jump that closes it. -/
def AsmBlock.loop_turn (blk : AsmBlock) (tsc : BitVec 64) (body : Body) (s : RunState) :
    Option RunState :=
  (after (blk.submission.id.label .loop_start) blk.program).bind fun c =>
    exec (machine tsc body blk.offsets) blk.program atLoopJump (c.length + 1) c s

/-- The next turn finds the address register and the operand `%2` as the turn before left
them. In a request nothing lies between two turns. Between two requests the address is saved
in `curr_mem_addrs` and loaded again. -/
structure Resumes (s s' : RunState) : Prop where
  addr : s'.cpu.regs ADDR_OFFSET_REG = s.cpu.regs ADDR_OFFSET_REG
  data : s'.cpu.args 2 = s.cpu.args 2
  accesses : s'.accesses = s.accesses

/-- Some turns of a block, one after the other. -/
inductive Turns (blk : AsmBlock) : ℕ → RunState → RunState → Prop
  | done (s : RunState) : Turns blk 0 s s
  | turn {n : ℕ} {s s₁ s₂ s₃ : RunState} (tsc : BitVec 64) (body : Body) :
      blk.loop_turn tsc body s = some s₁ → Resumes s₁ s₂ → Turns blk n s₂ s₃ →
      Turns blk (n + 1) s s₃

/-- The address register is `o` bytes behind `mem_data`. -/
structure StandsAt (mem_data : BitVec 64) (o : ℕ) (s : RunState) : Prop where
  data : s.cpu.args 2 = mem_data
  addr : (s.cpu.regs ADDR_OFFSET_REG).toNat = mem_data.toNat + o

/-- The address is in the cache line with this number. -/
def InLine (mem_data : BitVec 64) (line : ℕ) (a : BitVec 64) : Prop :=
  mem_data.toNat + line * CACHELINE_SIZE ≤ a.toNat ∧
    a.toNat < mem_data.toNat + (line + 1) * CACHELINE_SIZE

/-- One turn more than the working set has lines, from the offset `o`, reads every line. -/
def SweepsFrom (blk : AsmBlock) (mem_data : BitVec 64) (o : ℕ) : Prop :=
  ∀ s s', StandsAt mem_data o s → s.accesses = [] →
    Turns blk (blk.submission.mem_size / CACHELINE_SIZE + 1) s s' →
      ∀ line < blk.submission.mem_size / CACHELINE_SIZE, ∃ a ∈ s'.accesses, InLine mem_data line a

/-! ## The code of a turn -/

/-- The instructions up to the comparison with the top. -/
def turnHead (mem_size shift : ℕ) : List BlockInst :=
  [.asm ⟨.lea, [gp BASE_ADDR_REG, .argMem 2 0]⟩,
   .asm ⟨.lea, [gp TOP_ADDR_REG, .argMem 2 (mem_size - shift)]⟩,
   .asm ⟨.add, [gp LOOP_IDX_REG, .imm 1]⟩,
   .asm ⟨.mov, [gp .a, .imm RAND_A]⟩,
   .asm ⟨.mul, [gp RAND_REG]⟩,
   .asm ⟨.mov, [gp RAND_REG, gp .a]⟩,
   .asm ⟨.add, [gp RAND_REG, .imm RAND_C]⟩,
   .asm ⟨.cmp, [gp ADDR_OFFSET_REG, gp TOP_ADDR_REG]⟩]

def resetAddr : BlockInst := .asm ⟨.mov, [gp ADDR_OFFSET_REG, gp BASE_ADDR_REG]⟩

/-- The body and the instructions up to the comparison of the turns. -/
def turnTail (shift turns : ℕ) : List BlockInst :=
  [.body,
   .asm ⟨.add, [gp ADDR_OFFSET_REG, .imm shift]⟩,
   .asm ⟨.mov, [gp .di, .arg 5]⟩,
   .asm ⟨.add, [gp .di, .imm turns]⟩,
   .asm ⟨.cmp, [gp LOOP_IDX_REG, gp .di]⟩]

def behindTurn (b : BlockId) : List (LabelMachine.Stmt Label Cond BlockInst) :=
  [.jcc .l (b.label .loop_start),
   .inst (.asm ⟨.mov, [.arg 0, gp ADDR_OFFSET_REG]⟩),
   .inst (.asm ⟨.mov, [.arg 1, gp POINTER_CHASE_REG]⟩),
   .jmp (b.label .end_func),
   .label (b.label .dummy_call),
   .inst (.asm ⟨.ret, []⟩),
   .label (b.label .end_func)]

def bypassCode (b : BlockId) (shift turns : ℕ) : List (LabelMachine.Stmt Label Cond BlockInst) :=
  (turnTail shift turns).map .inst ++ behindTurn b

def turnCode (b : BlockId) (mem_size shift turns : ℕ) :
    List (LabelMachine.Stmt Label Cond BlockInst) :=
  (turnHead mem_size shift).map .inst ++ .jcc .le (b.label .bypass_reset) ::
    .inst resetAddr :: .label (b.label .bypass_reset) :: bypassCode b shift turns

section turn

variable (tsc : BitVec 64) (body : Body) (offsets : List ℕ) (b : BlockId)
  (mem_size shift turns : ℕ) (s : RunState)

theorem after_loop_start :
    after (b.label .loop_start) (blockCode b mem_size shift turns) =
      some (turnCode b mem_size shift turns) := by
  simp only [blockCode, init_stmts, rand_stmts, loop_stmts, List.cons_append, List.nil_append,
    List.map_cons, LabelMachine.Stmt.mapInst, after, LabelMachine.Stmt.defines?]
  rfl

theorem after_bypass_reset :
    after (b.label .bypass_reset) (blockCode b mem_size shift turns) =
      some (bypassCode b shift turns) := by
  simp [blockCode, init_stmts, rand_stmts, loop_stmts, LabelMachine.Stmt.mapInst, after,
    LabelMachine.Stmt.defines?, BlockId.label]
  rfl

/-- The state behind some instructions. -/
def actAll (is : List BlockInst) (s : RunState) : RunState :=
  is.foldl (fun s i => (machine tsc body offsets).act (.inst i) s) s

/-- The state in front of the body. -/
def placed : RunState :=
  let s := actAll tsc body offsets (turnHead mem_size shift) s
  if (machine tsc body offsets).holds .le s then s
  else (machine tsc body offsets).act (.inst resetAddr) s

theorem exec_bypassCode (n : ℕ) :
    exec (machine tsc body offsets) (blockCode b mem_size shift turns) atLoopJump
        ((turnTail shift turns).length + (n + 1)) (bypassCode b shift turns) s =
      some (actAll tsc body offsets (turnTail shift turns) s) := by
  rw [bypassCode, exec_insts (fun _ _ => rfl)]
  rfl

theorem exec_turnCode :
    exec (machine tsc body offsets) (blockCode b mem_size shift turns) atLoopJump
        ((turnCode b mem_size shift turns).length + 1) (turnCode b mem_size shift turns) s =
      some (actAll tsc body offsets (turnTail shift turns)
        (placed tsc body offsets mem_size shift s)) := by
  have hfuel : (turnCode b mem_size shift turns).length + 1 =
      (turnHead mem_size shift).length + (15 + 1) := rfl
  rw [hfuel, turnCode, exec_insts (fun _ _ => rfl)]
  unfold placed
  dsimp only
  rw [← actAll]
  generalize actAll tsc body offsets (turnHead mem_size shift) s = s₁
  by_cases hle : (machine tsc body offsets).holds .le s₁ = true
  · have hstep (c : List (LabelMachine.Stmt Label Cond BlockInst)) :
        step (machine tsc body offsets) (blockCode b mem_size shift turns)
          (.jcc .le (b.label .bypass_reset) :: c, s₁) = some (bypassCode b shift turns, s₁) := by
      simp only [step, hle, if_true, after_bypass_reset]
      rfl
    rw [exec_succ rfl (hstep _), if_pos hle]
    exact exec_bypassCode tsc body offsets b mem_size shift turns s₁ 9
  · have hstep (c : List (LabelMachine.Stmt Label Cond BlockInst)) :
        step (machine tsc body offsets) (blockCode b mem_size shift turns)
          (.jcc .le (b.label .bypass_reset) :: c, s₁) = some (c, s₁) := by
      simp only [step, hle, if_false, Bool.false_eq_true]
      rfl
    -- The reset, and the label behind it.
    rw [exec_succ rfl (hstep _), if_neg hle, exec_succ rfl rfl, exec_succ rfl rfl]
    exact exec_bypassCode tsc body offsets b mem_size shift turns _ 7

/-- The address register is not above the top. -/
def FitsTop : Prop :=
  (s.cpu.regs ADDR_OFFSET_REG).slt (s.cpu.args 2 + BitVec.ofNat 64 (mem_size - shift)) = true ∨
    s.cpu.regs ADDR_OFFSET_REG = s.cpu.args 2 + BitVec.ofNat 64 (mem_size - shift)

instance : Decidable (FitsTop mem_size shift s) := inferInstanceAs (Decidable (_ ∨ _))

/-- Where a turn starts to read. -/
def turnStart : BitVec 64 :=
  if FitsTop mem_size shift s then s.cpu.regs ADDR_OFFSET_REG else s.cpu.args 2

/-- What the comparison with the top finds, and what it leaves alone. -/
theorem turnHead_spec {s' : RunState} (h : actAll tsc body offsets (turnHead mem_size shift) s = s') :
    s'.cpu.regs ADDR_OFFSET_REG = s.cpu.regs ADDR_OFFSET_REG ∧
      s'.cpu.regs BASE_ADDR_REG = s.cpu.args 2 ∧ s'.cpu.args = s.cpu.args ∧
      s'.accesses = s.accesses ∧
      ((machine tsc body offsets).holds .le s' = true ↔ FitsTop mem_size shift s) := by
  rw [← h]
  simp [actAll, turnHead, machine, FitsTop, ADDR_OFFSET_REG, TOP_ADDR_REG, BASE_ADDR_REG,
    LOOP_IDX_REG, RAND_REG]

theorem placed_spec {s' : RunState} (h : placed tsc body offsets mem_size shift s = s') :
    s'.cpu.regs ADDR_OFFSET_REG = turnStart mem_size shift s ∧
      s'.cpu.args 2 = s.cpu.args 2 ∧ s'.accesses = s.accesses := by
  obtain ⟨haddr, hbase, hargs, haccesses, hle⟩ :=
    turnHead_spec tsc body offsets mem_size shift s rfl
  unfold placed at h
  dsimp only at h
  rw [← h, turnStart]
  by_cases hfits : FitsTop mem_size shift s
  · rw [if_pos (hle.mpr hfits), if_pos hfits]
    exact ⟨haddr, congrFun hargs 2, haccesses⟩
  · rw [if_neg (fun h => hfits (hle.mp h)), if_neg hfits]
    refine ⟨?_, congrFun hargs 2, haccesses⟩
    simpa [resetAddr] using hbase

/-- The body reads at its offsets, and the register moves on. -/
theorem turnTail_spec {s' : RunState} (h : actAll tsc body offsets (turnTail shift turns) s = s') :
    s'.cpu.regs ADDR_OFFSET_REG = s.cpu.regs ADDR_OFFSET_REG + BitVec.ofNat 64 shift ∧
      s'.cpu.args 2 = s.cpu.args 2 ∧
      s'.accesses = s.accesses ++
        offsets.map fun offset => s.cpu.regs ADDR_OFFSET_REG + BitVec.ofNat 64 offset := by
  have haddr := body.keeps_addr s.turn s.cpu
  have hdata := body.keeps_mem_data s.turn s.cpu
  rw [← h]
  simp only [ADDR_OFFSET_REG] at haddr ⊢
  simp [actAll, turnTail, machine, ADDR_OFFSET_REG, LOOP_IDX_REG, haddr, hdata]

end turn

/-- What one turn of a block does: it reads from its start on, and leaves the register behind
the bytes of the turn. -/
theorem loop_turn_spec (g : Generator) (sub : Submission) (n : ℕ) (lines : List (List Stmt))
    (tsc : BitVec 64) (body : Body) (s : RunState) :
    ∃ s', (block_text g sub n lines).loop_turn tsc body s = some s' ∧
      s'.cpu.regs ADDR_OFFSET_REG =
        turnStart sub.mem_size (shift_size g.page_multiplier sub.mem_size n) s +
          BitVec.ofNat 64 (shift_size g.page_multiplier sub.mem_size n) ∧
      s'.cpu.args 2 = s.cpu.args 2 ∧
      s'.accesses = s.accesses ++ (block_text g sub n lines).offsets.map fun offset =>
        turnStart sub.mem_size (shift_size g.page_multiplier sub.mem_size n) s +
          BitVec.ofNat 64 offset := by
  have hturn : (block_text g sub n lines).loop_turn tsc body s =
      some (actAll tsc body (block_text g sub n lines).offsets
        (turnTail (shift_size g.page_multiplier sub.mem_size n)
          (num_turns g.num_dynamic_insts sub.num_static_insts).toNat)
        (placed tsc body (block_text g sub n lines).offsets sub.mem_size
          (shift_size g.page_multiplier sub.mem_size n) s)) := by
    unfold AsmBlock.loop_turn
    have hsub : (block_text g sub n lines).submission.id = sub.id := rfl
    rw [program_block_text, hsub, after_loop_start, Option.bind_some, exec_turnCode]
  obtain ⟨haddr, hdata, haccesses⟩ := placed_spec tsc body (block_text g sub n lines).offsets
    sub.mem_size (shift_size g.page_multiplier sub.mem_size n) s rfl
  obtain ⟨haddr', hdata', haccesses'⟩ := turnTail_spec tsc body (block_text g sub n lines).offsets
    (shift_size g.page_multiplier sub.mem_size n)
    (num_turns g.num_dynamic_insts sub.num_static_insts).toNat _ rfl
  rw [haddr] at haddr' haccesses'
  exact ⟨_, hturn, haddr', hdata'.trans hdata, haccesses ▸ haccesses'⟩

/-! ## The turns are those of the abstract sweep -/

section sweep

variable {mem_data : BitVec 64} {mem_size shift o : ℕ} {s : RunState}

/-- The signed comparison with the top is right for addresses below `2 ^ 63`. -/
theorem StandsAt.fitsTop_iff (h : StandsAt mem_data o s) (hpos : mem_data.toNat + mem_size < 2 ^ 63)
    (ho : o ≤ mem_size) : FitsTop mem_size shift s ↔ o ≤ mem_size - shift := by
  have htop : (mem_data + BitVec.ofNat 64 (mem_size - shift)).toNat =
      mem_data.toNat + (mem_size - shift) := toNat_add_ofNat (by omega)
  unfold FitsTop
  rw [h.data, BitVec.slt_iff_toInt_lt, BitVec.toInt_eq_toNat_of_lt (by rw [h.addr]; omega),
    BitVec.toInt_eq_toNat_of_lt (by omega), ← BitVec.toNat_inj, htop, h.addr]
  omega

theorem StandsAt.toNat_turnStart (h : StandsAt mem_data o s)
    (hpos : mem_data.toNat + mem_size < 2 ^ 63) (ho : o ≤ mem_size) :
    (turnStart mem_size shift s).toNat = mem_data.toNat + Sweep.place (mem_size - shift) o := by
  unfold turnStart Sweep.place
  by_cases hle : o ≤ mem_size - shift
  · rw [if_pos ((h.fitsTop_iff hpos ho).mpr hle), if_pos hle, h.addr]
  · rw [if_neg (fun hfits => hle ((h.fitsTop_iff hpos ho).mp hfits)), if_neg hle, h.data,
      Nat.add_zero]

end sweep

section turns

variable {g : Generator} {sub : Submission} {n : ℕ} {lines : List (List Stmt)} {o : ℕ}
  {mem_data : BitVec 64} {s s' : RunState}

/-- The accesses of some turns are those at the offsets of the block from the starts of the
sweep. -/
theorem mem_accesses_of_turns {t : ℕ} (h : Turns (block_text g sub n lines) t s s')
    (hstands : StandsAt mem_data o s) (hpos : mem_data.toNat + sub.mem_size < 2 ^ 63)
    (ho : o ≤ sub.mem_size)
    (hoff : ∀ offset ∈ (block_text g sub n lines).offsets,
      offset ≤ shift_size g.page_multiplier sub.mem_size n) (a : BitVec 64) :
    a ∈ s'.accesses ↔ a ∈ s.accesses ∨
      ∃ p ∈ Sweep.starts (sub.mem_size - shift_size g.page_multiplier sub.mem_size n)
          (shift_size g.page_multiplier sub.mem_size n) t o,
        ∃ offset ∈ (block_text g sub n lines).offsets, a.toNat = mem_data.toNat + p + offset := by
  induction t generalizing s o with
  | zero =>
    cases h
    simp [Sweep.starts]
  | succ t ih =>
    obtain _ | @⟨_, _, s₁, s₂, _, tsc, body, hturn, hresumes, hrest⟩ := h
    obtain ⟨s₁', hturn', haddr, hdata, haccesses⟩ := loop_turn_spec g sub n lines tsc body s
    obtain rfl : s₁ = s₁' := Option.some.inj (hturn.symm.trans hturn')
    have hshift := @shift_size_le g.page_multiplier sub.mem_size n
    have hstart := @StandsAt.toNat_turnStart mem_data sub.mem_size
      (shift_size g.page_multiplier sub.mem_size n) o s hstands hpos ho
    have hplace := Sweep.place_le (sub.mem_size - shift_size g.page_multiplier sub.mem_size n) o
    generalize shift_size g.page_multiplier sub.mem_size n = shift at *
    generalize turnStart sub.mem_size shift s = start at *
    generalize hp : Sweep.place (sub.mem_size - shift) o = p at *
    -- The register leaves the turn at an offset that is still in the working set.
    have hnext : StandsAt mem_data (p + shift) s₂ := by
      refine ⟨hresumes.data.trans (hdata.trans hstands.data), ?_⟩
      rw [hresumes.addr, haddr, toNat_add_ofNat (by omega)]
      omega
    have hread : a ∈ (block_text g sub n lines).offsets.map
        (fun offset => start + BitVec.ofNat 64 offset) ↔
        ∃ offset ∈ (block_text g sub n lines).offsets, a.toNat = mem_data.toNat + p + offset := by
      rw [List.mem_map]
      apply exists_congr
      intro offset
      apply and_congr_right
      intro hmem
      have := hoff offset hmem
      rw [eq_comm, ← BitVec.toNat_inj, toNat_add_ofNat (by omega), hstart]
    rw [ih hrest hnext (by omega), hresumes.accesses, haccesses, List.mem_append, hread, or_assoc,
      Sweep.starts, List.exists_mem_cons_iff, hp]

/-- The loop can always go on. -/
theorem exists_turns (g : Generator) (sub : Submission) (n : ℕ) (lines : List (List Stmt)) (t : ℕ)
    (s : RunState) : ∃ s', Turns (block_text g sub n lines) t s s' := by
  induction t generalizing s with
  | zero => exact ⟨s, .done s⟩
  | succ t ih =>
    obtain ⟨s₁, hturn, _⟩ := loop_turn_spec g sub n lines 0 ⟨fun _ c => c, by simp, by simp⟩ s
    obtain ⟨s', hrest⟩ := ih s₁
    exact ⟨s', .turn 0 _ hturn ⟨rfl, rfl, rfl⟩ hrest⟩

/-- A state at an offset, without an access. -/
def stateAt (mem_data : BitVec 64) (o : ℕ) : RunState :=
  ⟨⟨fun _ => mem_data + BitVec.ofNat 64 o, fun _ => mem_data, false, false⟩, 0, []⟩

theorem standsAt_stateAt (h : mem_data.toNat + o < 2 ^ 64) :
    StandsAt mem_data o (stateAt mem_data o) := ⟨rfl, toNat_add_ofNat h⟩

end turns

/-! ## The lines of a block -/

section block

variable {g : Generator} {sub : Submission} {d : BlockDraws} {blk : AsmBlock} {k : ℕ}
  {lines : List (List Stmt)} {mem_data : BitVec 64} {o : ℕ}

/-- The offsets of a block are those of the first cache lines. -/
theorem mem_offsets_iff {lines' : List (List Stmt)} (hlines : body_lines sub d = .ok lines)
    (hk : 6 ≤ k) (hsize : sub.mem_size = 2 ^ k)
    (hpages : sub.mem_size < PAGED_SIZE ∨ g.page_multiplier = 1)
    (hplaced : allocate_mem_addrs g.page_multiplier d.indices lines sub.mem_size
      (num_memaddrs lines) = .ok lines') (offset : ℕ) :
    offset ∈ (block_text g sub (num_memaddrs lines) lines').offsets ↔
      ∃ i < num_cachelines_in_loop sub.mem_size (num_memaddrs lines), offset = i * CACHELINE_SIZE := by
  rw [hsize] at hpages hplaced ⊢
  rw [← offset_iff hk hpages hplaced (fun line hl => body_lines_no_offset hlines hl)]
  constructor
  · exact exists_line_of_offset
  · rintro ⟨line, hline, hoffset⟩
    obtain ⟨st, hst, ho⟩ := List.mem_flatMap.mp hoffset
    unfold AsmBlock.offsets block_text
    rw [stmts_body_statements]
    apply List.mem_filterMap.mpr
    refine ⟨_, List.mem_flatMap.mpr ⟨st, List.mem_flatten.mpr ⟨line, hline, hst⟩, ho⟩, ?_⟩
    simp [Operand.offset?]

/-- Some turns read a line exactly when the abstract sweep covers it. -/
theorem exists_access_iff {n m t line : ℕ} {s s' : RunState}
    (h : Turns (block_text g sub m lines) t s s') (hstands : StandsAt mem_data o s)
    (hnone : s.accesses = []) (hpos : mem_data.toNat + sub.mem_size < 2 ^ 63)
    (ho : o ≤ sub.mem_size)
    (hshift : shift_size g.page_multiplier sub.mem_size m = n * CACHELINE_SIZE)
    (hoff : ∀ offset, offset ∈ (block_text g sub m lines).offsets ↔
      ∃ i < n, offset = i * CACHELINE_SIZE) :
    (∃ a ∈ s'.accesses, InLine mem_data line a) ↔
      Sweep.Covered CACHELINE_SIZE n
        (Sweep.starts (sub.mem_size - n * CACHELINE_SIZE) (n * CACHELINE_SIZE) t o) line := by
  have hle := @shift_size_le g.page_multiplier sub.mem_size m
  have hread := mem_accesses_of_turns h hstands hpos ho (by
    intro offset hoffset
    obtain ⟨i, hi, rfl⟩ := (hoff offset).mp hoffset
    rw [hshift]
    exact Nat.mul_le_mul_right _ (by omega))
  simp only [hnone, List.not_mem_nil, false_or, hshift] at hread
  rw [hshift] at hle
  unfold InLine Sweep.Covered
  unfold CACHELINE_SIZE at *
  constructor
  · rintro ⟨a, ha, hlow, hhigh⟩
    obtain ⟨p, hp, offset, hoffset, haddr⟩ := (hread a).mp ha
    obtain ⟨i, hi, rfl⟩ := (hoff offset).mp hoffset
    exact ⟨p, hp, by omega, by omega⟩
  · rintro ⟨p, hp, hlow, hhigh⟩
    have htop := Sweep.le_of_mem_starts hp
    have haddr : (mem_data + BitVec.ofNat 64 (p + (line - p / 64) * 64)).toNat =
        mem_data.toNat + (p + (line - p / 64) * 64) := toNat_add_ofNat (by omega)
    refine ⟨mem_data + BitVec.ofNat 64 (p + (line - p / 64) * 64), ?_, by omega, by omega⟩
    rw [hread]
    exact ⟨p, hp, _, (hoff _).mpr ⟨line - p / 64, by omega, rfl⟩, by omega⟩

/-- A block sweeps its working set from an offset exactly when the abstract sweep covers all
lines from there. -/
theorem sweepsFrom_iff (hblk : generate_asm_block g sub d = .ok (some blk))
    (hlines : body_lines sub d = .ok lines) (hk : 6 ≤ k) (hsize : sub.mem_size = 2 ^ k)
    (hpages : sub.mem_size < PAGED_SIZE ∨ g.page_multiplier = 1)
    (hpos : mem_data.toNat + sub.mem_size < 2 ^ 63) (ho : o ≤ sub.mem_size) {n L : ℕ}
    (hn : num_cachelines_in_loop sub.mem_size (num_memaddrs lines) = n)
    (hL : sub.mem_size / CACHELINE_SIZE = L) :
    SweepsFrom blk mem_data o ↔ ∀ line < L, Sweep.Covered CACHELINE_SIZE n
      (Sweep.starts ((L - n) * CACHELINE_SIZE) (n * CACHELINE_SIZE) (L + 1) o) line := by
  obtain ⟨lines₁, lines', hlines₁, _, hplaced, rfl⟩ := (generate_asm_block_spec hblk).lines
  obtain rfl : lines = lines₁ := Except.ok.inj (hlines.symm.trans hlines₁)
  have hoffsets := mem_offsets_iff hlines hk hsize hpages hplaced
  have hshift := shift_size_eq hpages (num_memaddrs lines)
  rw [hn] at hshift
  rw [hn] at hoffsets
  have htop : sub.mem_size - n * CACHELINE_SIZE = (L - n) * CACHELINE_SIZE := by
    rw [Nat.sub_mul, ← hL, hsize, two_pow_eq_lines hk, Nat.mul_div_cancel _ (by decide)]
  rw [← htop]
  have hblk : (block_text g sub (num_memaddrs lines) lines').submission.mem_size / CACHELINE_SIZE =
      L := hL
  unfold SweepsFrom
  rw [hblk]
  constructor
  · intro h line hline
    -- A run of the turns exists, and its accesses are those of the abstract sweep.
    have hstands : StandsAt mem_data o (stateAt mem_data o) := standsAt_stateAt (by omega)
    obtain ⟨s', hturns⟩ := exists_turns g sub (num_memaddrs lines) lines' (L + 1)
      (stateAt mem_data o)
    rw [← exists_access_iff hturns hstands rfl hpos ho hshift hoffsets]
    exact h _ s' hstands rfl hturns line hline
  · intro h s s' hstands hnone hturns line hline
    rw [exists_access_iff hturns hstands hnone hpos ho hshift hoffsets]
    exact h line hline

end block

/-! ## The laws -/

/-- From every offset of the address register, one turn more than the working set has lines
reads every line exactly when the lines of a turn divide the lines of the working set, and a
turn reads more than one line or the working set has at most two. From the start of every
line, it is enough that they divide them. -/
theorem block_sweeps_iff_turn_divides {g : Generator} {sub : Submission} {d : BlockDraws}
    {blk : AsmBlock} {k : ℕ} {lines : List (List Stmt)} {mem_data : BitVec 64}
    (hblk : generate_asm_block g sub d = .ok (some blk)) (hlines : body_lines sub d = .ok lines)
    (hk : 6 ≤ k) (hsize : sub.mem_size = 2 ^ k)
    (hpages : sub.mem_size < PAGED_SIZE ∨ g.page_multiplier = 1)
    (hpos : mem_data.toNat + sub.mem_size < 2 ^ 63) :
    ((∀ o ≤ sub.mem_size, SweepsFrom blk mem_data o) ↔
      num_cachelines_in_loop sub.mem_size (num_memaddrs lines) ∣ sub.mem_size / CACHELINE_SIZE ∧
        (2 ≤ num_cachelines_in_loop sub.mem_size (num_memaddrs lines) ∨
          sub.mem_size / CACHELINE_SIZE ≤ 2)) ∧
    ((∀ o ≤ sub.mem_size, CACHELINE_SIZE ∣ o → SweepsFrom blk mem_data o) ↔
      num_cachelines_in_loop sub.mem_size (num_memaddrs lines) ∣ sub.mem_size / CACHELINE_SIZE) := by
  have hsweeps := fun o (ho : o ≤ sub.mem_size) =>
    sweepsFrom_iff (o := o) hblk hlines hk hsize hpages hpos ho rfl rfl
  obtain ⟨lines₁, _, hlines₁, hcount, _⟩ := (generate_asm_block_spec hblk).lines
  obtain rfl : lines = lines₁ := Except.ok.inj (hlines.symm.trans hlines₁)
  have hmem : sub.mem_size = sub.mem_size / CACHELINE_SIZE * CACHELINE_SIZE := by
    rw [hsize, two_pow_eq_lines hk, Nat.mul_div_cancel _ (by decide)]
  have hL : 0 < sub.mem_size / CACHELINE_SIZE := by
    apply Nat.pos_of_ne_zero
    intro hzero
    rw [hzero, Nat.zero_mul, hsize] at hmem
    exact absurd hmem (Nat.two_pow_pos k).ne'
  have hn : 0 < num_cachelines_in_loop sub.mem_size (num_memaddrs lines) := by
    unfold num_cachelines_in_loop
    omega
  have hnL : num_cachelines_in_loop sub.mem_size (num_memaddrs lines) ≤ sub.mem_size / CACHELINE_SIZE :=
    Nat.min_le_right _ _
  rw [← Sweep.covered_iff (by decide : 2 ≤ CACHELINE_SIZE) hn hnL,
    ← Sweep.covered_iff_of_aligned (by decide : 0 < CACHELINE_SIZE) hn hnL, ← hmem]
  refine ⟨forall₂_congr hsweeps, ?_⟩
  apply forall₂_congr
  intro o ho
  exact imp_congr_right fun _ => hsweeps o ho

/-- Loads of a working set of four cache lines. -/
def fourLines : Generator := { oneLine with dcache_stats := ⟨[(256, 1)], by decide⟩ }

/-- A block with this many loads. -/
def loads (num_static_insts : ℤ) : Submission := ⟨0, 0, 0, 256, num_static_insts, 1, 0, 1024⟩

theorem exists_loads {num_static_insts : ℤ} {n : ℕ}
    (h : (body_lines (loads num_static_insts) loadDraws).toOption.map num_memaddrs = some n) :
    ∃ lines, body_lines (loads num_static_insts) loadDraws = .ok lines ∧ num_memaddrs lines = n := by
  obtain ⟨lines, hlines, hcount⟩ := Option.map_eq_some_iff.mp h
  refine ⟨lines, ?_, hcount⟩
  generalize body_lines (loads num_static_insts) loadDraws = r at hlines ⊢
  rcases r with err | lines'
  · cases hlines
  · rw [show lines' = lines from Option.some.inj hlines]

/-- A turn of three loads goes back to the base with one line left of four, so from offset 0
the last line is never read. -/
theorem three_loads_never_read_the_fourth_line :
    ¬ ∀ (g : Generator) (sub : Submission) (d : BlockDraws) (blk : AsmBlock) (k : ℕ)
      (mem_data : BitVec 64), generate_asm_block g sub d = .ok (some blk) → 6 ≤ k →
      sub.mem_size = 2 ^ k → sub.mem_size < PAGED_SIZE ∨ g.page_multiplier = 1 →
      mem_data.toNat + sub.mem_size < 2 ^ 63 → ∀ o ≤ sub.mem_size, SweepsFrom blk mem_data o := by
  intro h
  obtain ⟨blk, hblk⟩ : ∃ blk, generate_asm_block fourLines (loads 3) loadDraws = .ok (some blk) :=
    exists_block (by decide +kernel)
  obtain ⟨lines, hlines, hcount⟩ := @exists_loads 3 3 (by decide +kernel)
  have hn : num_cachelines_in_loop (loads 3).mem_size (num_memaddrs lines) = 3 := by
    rw [hcount]
    rfl
  have hsweeps := h fourLines (loads 3) loadDraws blk 8 4096 hblk (by decide) rfl (.inr rfl)
    (by decide) 0 (Nat.zero_le _)
  rw [sweepsFrom_iff (k := 8) hblk hlines (by decide) rfl (.inr rfl) (by decide) (Nat.zero_le _)
    hn rfl] at hsweeps
  have hdvd : 3 ∣ 4 :=
    Sweep.dvd_of_covered (by decide) (by decide) (by decide) (hsweeps 3 (by decide))
  exact absurd hdvd (by decide)

/-- Two loads divide the four lines, so from every offset five turns read all of them. -/
theorem two_loads_sweep_four_lines :
    ∃ blk, generate_asm_block fourLines (loads 2) loadDraws = .ok (some blk) ∧
      ∀ o ≤ 256, SweepsFrom blk 4096 o := by
  obtain ⟨blk, hblk⟩ : ∃ blk, generate_asm_block fourLines (loads 2) loadDraws = .ok (some blk) :=
    exists_block (by decide +kernel)
  obtain ⟨lines, hlines, hcount⟩ := @exists_loads 2 2 (by decide +kernel)
  have hlaw := @block_sweeps_iff_turn_divides _ _ _ _ 8 _ 4096 hblk hlines (by decide) rfl
    (.inr rfl) (by decide)
  rw [hcount] at hlaw
  exact ⟨blk, hblk, hlaw.1.mpr (by decide)⟩

end ditto.assembly_generator
