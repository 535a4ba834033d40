-- The pointer chase of the generated code. A block takes the saved pointer of
-- its segment into a register, each chase replaces the register by the word
-- that it points to, and the end of the block saves the register. No other
-- instruction of the block writes that register.
import Ditto.Clobbers
import Ditto.Labels
import Ditto.Service

open LabelMachine
open ditto.data_dependency_analyzer (GpReg)
open ditto.service

namespace ditto.assembly_generator

/-! ## The machine -/

def chase : Inst := ⟨.mov, [gp POINTER_CHASE_REG, .mem POINTER_CHASE_REG 0]⟩

/-- No operand of the instruction is the register of the chase. -/
def Inst.Spares (i : Inst) : Prop :=
  gp POINTER_CHASE_REG ∉ i.operands ∧ .reg32 POINTER_CHASE_REG ∉ i.operands

instance (i : Inst) : Decidable i.Spares := inferInstanceAs (Decidable (_ ∧ _))

/-- The instructions but for the chase. A `mov` between a register and an operand of the asm
statement is exact. Any other instruction may do anything to the registers, the operands and
the flags, but it keeps the register of the chase when that is none of its operands. -/
structure Isa where
  run : Inst → Cpu → Cpu
  load_arg : ∀ r k c, run ⟨.mov, [gp r, .arg k]⟩ c = c.write (c.args k) (gp r)
  save_arg : ∀ r k c, run ⟨.mov, [.arg k, gp r]⟩ c = c.write (c.regs r) (.arg k)
  keeps : ∀ i c, i.Spares → (run i c).regs POINTER_CHASE_REG = c.regs POINTER_CHASE_REG

/-- The registers that an instruction writes without a name are others. -/
theorem Inst.Spares.not_written {i : Inst} (h : i.Spares) : gp POINTER_CHASE_REG ∉ i.written := by
  unfold Inst.written
  split
  case h_8 =>
    rename_i hoperands _ _ _ _ _ _ _
    intro hmem
    apply h.1
    rw [hoperands, ← List.mem_singleton.mp hmem]
    exact List.mem_cons_self
  all_goals decide

/-- The instructions around the body keep the register of the chase. -/
theorem Cpu.regs_run {tsc : BitVec 64} {i : Inst} (h : i.Spares) (c : Cpu) :
    (c.run tsc i).regs POINTER_CHASE_REG = c.regs POINTER_CHASE_REG := by
  apply Cpu.regs_run_of_not_written
  exact h.not_written

/-- The instructions of a block as `Cpu.run` has them. -/
def cpuIsa (tsc : BitVec 64) : Isa where
  run i c := c.run tsc i
  load_arg _ _ _ := rfl
  save_arg _ _ _ := rfl
  keeps _ c h := Cpu.regs_run h c

/-- The machine that runs all statements of a block. `load` is the memory. -/
def chaseMachine (isa : Isa) (load : BitVec 64 → BitVec 64) : Machine Label Cond Inst Cpu where
  act
    | .inst i, c =>
      if i = chase then c.write (load (c.regs POINTER_CHASE_REG)) (gp POINTER_CHASE_REG)
      else isa.run i c
    | _, c => c
  holds
    | .le, c => c.less || c.zero
    | .l, c => c.less
    | .z, c => c.zero
    | .nz, c => !c.zero

/-! ## The thread -/

/-- The address of a word of the array at `base`. -/
def wordAddr (base : BitVec 64) (j : ℕ) : BitVec 64 := base + BitVec.ofNat 64 (8 * j)

/-- Every word of the array at `base` holds the address of the word that `Init` links it to. -/
def Linked (shuffle : ℕ → Shuffle ℕ) (mem : ℕ → ℕ) (base : BitVec 64)
    (load : BitVec 64 → BitVec 64) : Prop :=
  ∀ j < num_words, load (wordAddr base j) = wordAddr base (Init shuffle mem j)

/-- The saved pointers of a thread after some blocks. At its start a thread points to the first
word of each segment. Each block runs from its first statement to its end, with the saved
pointer as operand `%4`, and saves operand `%1`. -/
inductive ChaseThread (g : Generator) (base : BitVec 64) (load : BitVec 64 → BitVec 64) :
    List (BitVec 64) → Prop
  | start : ChaseThread g base load (init_mem_addrs base)
  | block {ptrs : List (BitVec 64)} {s : Submission} {d : BlockDraws} {blk : AsmBlock}
      {isa : Isa} {c₀ c₁ : Cpu} :
      ChaseThread g base load ptrs → generate_asm_block g s d = .ok (some blk) →
      ptrs[blk.mem_id]? = some (c₀.args 4) →
      Reaches (chaseMachine isa load) blk.stmts (blk.stmts, c₀) ([], c₁) →
      ChaseThread g base load (ptrs.set blk.mem_id (c₁.args 1))

/-! ## The statements of a block -/

/-- The statement leaves the register of the chase alone or chases, and it does not go behind
the saving of the pointer. -/
def ChaseStmt : Stmt → Prop
  | .label l | .jmp l | .jcc _ l => l.kind ≠ .dummy_call ∧ l.kind ≠ .end_func
  | .call _ => True
  | .inst i => i = chase ∨ i.Spares

theorem cond_template_spares (d : Draw) : ∀ i ∈ (cond_template d).insts, i = chase ∨ i.Spares := by
  unfold cond_template
  split <;> simp [Template.insts, Inst.Spares, gp, LOOP_IDX_REG, RAND_REG, POINTER_CHASE_REG]

theorem template_spares {d : Draw} {t : Template} (h : template d = .ok t) :
    ∀ i ∈ t.insts, i = chase ∨ i.Spares := by
  intro i hi
  rcases insts_of_template h i hi with hcond | rfl | hplaces
  · exact cond_template_spares d i hcond
  · exact .inl rfl
  · exact .inr ⟨fun hmem => absurd (hplaces _ hmem) (by decide),
      fun hmem => absurd (hplaces _ hmem) (by decide)⟩

theorem Template.chaseStmt_text {b : BlockId} {idx : LabelIdx} {t : Template} {st : Stmt}
    (h : ∀ i ∈ t.insts, i = chase ∨ i.Spares) (hst : st ∈ Text.items (t.text b idx)) :
    ChaseStmt st := by
  cases t <;> simp only [Template.text, Text.items_append, Text.items_line, List.mem_append,
    List.mem_singleton] at hst
  case line i => exact hst ▸ h i (by simp [Template.insts])
  case glued i =>
    obtain rfl : st = .inst i := by simpa [Text.items, List.reduceOption] using hst
    exact h i (by simp [Template.insts])
  case uncond => rcases hst with rfl | rfl <;> simp [ChaseStmt, BlockId.label]
  case cond test c =>
    rcases hst with (rfl | rfl) | rfl
    · exact h test (by simp [Template.insts])
    · simp [ChaseStmt, BlockId.label]
    · simp [ChaseStmt, BlockId.label]
  case call => simp [hst, ChaseStmt]
  case empty => cases hst

theorem chaseStmt_shuffled {b : BlockId} {ds : List Draw} {asm : Asm}
    (h : unshuffled b ds = .ok asm) (shuffle : Shuffle Asm) {st : Stmt}
    (hst : st ∈ Text.items (shuffle_uncond_blocks shuffle asm b)) : ChaseStmt st := by
  rcases mem_of_shuffle hst with rfl | rfl | hst
  · simp [ChaseStmt, BlockId.label]
  · simp [ChaseStmt, BlockId.label]
  · rcases mem_unshuffled h hst with rfl | rfl | ⟨d, t, idx, ht, hst⟩
    · simp [ChaseStmt, BlockId.label]
    · simp [ChaseStmt, BlockId.label]
    · exact Template.chaseStmt_text (template_spares ht) hst

/-- A placeholder is no operand of a chase, so replacing it keeps the chases. -/
theorem chaseStmt_replace_operand {old new : Operand} (hold : old ∉ chase.operands)
    (hreg : new ≠ gp POINTER_CHASE_REG) (hreg32 : new ≠ .reg32 POINTER_CHASE_REG) {st : Stmt}
    (h : ChaseStmt st) : ChaseStmt (replace_operand old new st) := by
  cases st with
  | inst i =>
    rcases h with rfl | ⟨hi, hi32⟩
    · refine .inl ?_
      rw [Text.replaceLast_of_not_mem hold]
    · refine .inr ⟨fun hmem => ?_, fun hmem => ?_⟩
      · rcases Text.mem_or_eq_of_mem_replaceLast hmem with hmem | hmem
        · exact hi hmem
        · exact hreg hmem.symm
      · rcases Text.mem_or_eq_of_mem_replaceLast hmem with hmem | hmem
        · exact hi32 hmem
        · exact hreg32 hmem.symm
  | _ => exact h

theorem keptByRegs_chaseStmt : KeptByRegs ChaseStmt := by
  intro access group r hr st hst
  refine chaseStmt_replace_operand (by simp [chase, gp]) ?_ (by simp) hst
  rintro ⟨⟩
  revert hr
  cases group <;> decide

theorem keptByAddrs_chaseStmt : KeptByAddrs ChaseStmt := by
  intro offset st hst
  exact chaseStmt_replace_operand (by simp [chase, gp]) (by simp [gp]) (by simp) hst

theorem chaseStmt_body {s : Submission} {d : BlockDraws} {page_multiplier n : ℕ}
    {lines lines' : List (List Stmt)} (h : body_lines s d = .ok lines)
    (hplaced : allocate_mem_addrs page_multiplier d.indices lines s.mem_size n = .ok lines') :
    ∀ st ∈ lines'.flatten, ChaseStmt st := by
  unfold body_lines at h
  obtain ⟨asm, hasm, h⟩ := PyError.ok_of_bind h
  have htext : ∀ line ∈ Text.split (shuffle_uncond_blocks d.pieces asm s.id),
      ∀ st ∈ line, ChaseStmt st := by
    intro line hline st hst
    apply chaseStmt_shuffled hasm d.pieces
    rw [← Text.flatten_split]
    exact List.mem_flatten.mpr ⟨line, hline, hst⟩
  have hregs := allocate_lines_all keptByRegs_chaseStmt h htext
  intro st hst
  obtain ⟨line, hline, hst⟩ := List.mem_flatten.mp hst
  exact place_lines_all keptByAddrs_chaseStmt hplaced hregs line hline st hst

/-- The statements from the saving of the pointer on. -/
def saveStmts (b : BlockId) : List Stmt :=
  [.inst ⟨.mov, [.arg 1, gp POINTER_CHASE_REG]⟩,
   .jmp (b.label .end_func),
   .label (b.label .dummy_call),
   .inst ⟨.ret, []⟩,
   .label (b.label .end_func)]

/-- Between the start of a block and the saving of the pointer there are only chases and
statements that leave the pointer alone. -/
theorem BlockFrom.stmts_eq {g : Generator} {s : Submission} {d : BlockDraws} {blk : AsmBlock}
    (h : BlockFrom g s d blk) :
    ∃ c, blk.stmts = init_stmts ++ (c ++ saveStmts s.id) ∧ ∀ st ∈ c, ChaseStmt st := by
  obtain ⟨lines, lines', hlines, -, hplaced, rfl⟩ := h.lines
  have hbody := chaseStmt_body hlines hplaced
  rw [stmts_block_text]
  generalize shift_size g.page_multiplier s.mem_size _ = shift
  generalize (num_turns g.num_dynamic_insts s.num_static_insts).toNat = turns
  refine ⟨rand_stmts ++ loop_stmts s.id s.mem_size shift ++
    (lines'.flatten ++ (tail_stmts s.id shift turns).take 6), ?_, ?_⟩
  · simp only [List.append_assoc]
    rfl
  · intro st hst
    simp only [List.mem_append] at hst
    rcases hst with (hst | hst) | hst | hst
    · simp only [rand_stmts, List.mem_cons, List.not_mem_nil, or_false] at hst
      rcases hst with rfl | rfl <;> exact .inr (by decide)
    · simp only [loop_stmts, List.mem_cons, List.not_mem_nil, or_false] at hst
      rcases hst with rfl | rfl | rfl | rfl | rfl | rfl | rfl | rfl | rfl | rfl | rfl | rfl <;>
        simp [ChaseStmt, Inst.Spares, gp, BlockId.label, BASE_ADDR_REG, TOP_ADDR_REG,
          ADDR_OFFSET_REG, LOOP_IDX_REG, RAND_REG, POINTER_CHASE_REG]
    · exact hbody st hst
    · simp only [tail_stmts, List.take_succ_cons, List.take_zero, List.mem_cons, List.not_mem_nil,
        or_false] at hst
      rcases hst with rfl | rfl | rfl | rfl | rfl | rfl <;>
        simp [ChaseStmt, Inst.Spares, gp, BlockId.label, ADDR_OFFSET_REG, LOOP_IDX_REG,
          POINTER_CHASE_REG]

/-! ## The run of a block -/

/-- What holds of the pointer at each label. -/
def chaseTable (ok : BitVec 64 → Prop) : Label → Cpu → Prop
  | ⟨.dummy_call, _⟩, _ => False
  | ⟨.end_func, _⟩, c => ok (c.args 1)
  | _, c => ok (c.regs POINTER_CHASE_REG)

section run

variable {ok : BitVec 64 → Prop} {isa : Isa} {load : BitVec 64 → BitVec 64}

theorem chaseTable_eq {l : Label} (h : l.kind ≠ .dummy_call ∧ l.kind ≠ .end_func) (c : Cpu) :
    chaseTable ok l c = ok (c.regs POINTER_CHASE_REG) := by
  obtain ⟨kind, b⟩ := l
  cases kind <;> simp_all [chaseTable]

theorem act_load_arg (r : GpReg) (k : Fin 6) (c : Cpu) :
    (chaseMachine isa load).act (.inst ⟨.mov, [gp r, .arg k]⟩) c = c.write (c.args k) (gp r) := by
  simp [chaseMachine, chase, ← isa.load_arg]

theorem act_save_arg (r : GpReg) (k : Fin 6) (c : Cpu) :
    (chaseMachine isa load).act (.inst ⟨.mov, [.arg k, gp r]⟩) c = c.write (c.regs r) (.arg k) := by
  simp [chaseMachine, chase, gp, ← isa.save_arg]

theorem keeps_chaseStmt (hload : ∀ a, ok a → ok (load a)) {st : Stmt} (h : ChaseStmt st) :
    st.Keeps (chaseMachine isa load) (chaseTable ok) (fun c => ok (c.regs POINTER_CHASE_REG)) := by
  cases st with
  | label l => exact fun c hc => (chaseTable_eq h c).mpr hc
  | jmp l => exact fun c hc => (chaseTable_eq h c).mpr hc
  | jcc k l => exact fun c hc => ⟨hc, (chaseTable_eq h c).mpr hc⟩
  | call l => exact fun c hc => hc
  | inst i =>
    intro c hc
    simp only [chaseMachine]
    split
    · simpa using hload _ hc
    · rename_i hi
      rw [isa.keeps i c (h.resolve_left hi)]
      exact hc

theorem wlp_saveStmts (b : BlockId) {c : Cpu} (hc : ok (c.regs POINTER_CHASE_REG)) :
    wlp (chaseMachine isa load) (fun _ => True) (chaseTable ok) (fun c => ok (c.args 1))
      (saveStmts b) c := by
  simpa [saveStmts, wlp, act_save_arg, chaseTable, BlockId.label] using hc

theorem tableHolds_saveStmts (b : BlockId) :
    TableHolds (chaseMachine isa load) (saveStmts b) (fun _ => True) (chaseTable ok)
      (fun c => ok (c.args 1)) := by
  intro x hx c _ hc
  simp only [saveStmts, cells, List.mem_cons, List.not_mem_nil, or_false] at hx
  rcases hx with rfl | rfl
  · cases hc
  · exact ⟨trivial, hc⟩

/-- A block that takes a good pointer saves a good pointer, when chasing leads from good
pointers to good ones. -/
theorem BlockFrom.saves {g : Generator} {s : Submission} {d : BlockDraws} {blk : AsmBlock}
    {c₀ c₁ : Cpu} (h : BlockFrom g s d blk) (hload : ∀ a, ok a → ok (load a))
    (hptr : ok (c₀.args 4))
    (hr : Reaches (chaseMachine isa load) blk.stmts (blk.stmts, c₀) ([], c₁)) :
    ok (c₁.args 1) := by
  obtain ⟨c, hcode, hc⟩ := h.stmts_eq
  rw [hcode] at hr
  have hkeeps : ∀ st ∈ c, st.Keeps (chaseMachine isa load) (chaseTable ok)
      (fun c => ok (c.regs POINTER_CHASE_REG)) :=
    fun st hst => keeps_chaseStmt hload (hc st hst)
  have hrest : ∀ c' : Cpu, ok (c'.regs POINTER_CHASE_REG) →
      wlp (chaseMachine isa load) (fun _ => True) (chaseTable ok) (fun c => ok (c.args 1))
        (c ++ saveStmts s.id) c' :=
    fun c' => wlp_append_of_keeps (fun _ _ => trivial) hkeeps (fun _ => wlp_saveStmts s.id)
  have htable : TableHolds (chaseMachine isa load) (c ++ saveStmts s.id) (fun _ => True)
      (chaseTable ok) (fun c => ok (c.args 1)) := by
    refine tableHolds_append (fun _ _ => trivial) hkeeps ?_ (fun _ => wlp_saveStmts s.id)
      (tableHolds_saveStmts s.id)
    intro l hl c' _ hc'
    rwa [chaseTable_eq (hc _ hl)] at hc'
  have hstart : wlp (chaseMachine isa load) (fun _ => True) (chaseTable ok)
      (fun c => ok (c.args 1)) (init_stmts ++ (c ++ saveStmts s.id)) c₀ := by
    refine ⟨trivial, trivial, trivial, hrest _ ?_⟩
    rw [act_load_arg, act_load_arg, act_load_arg]
    simpa [ADDR_OFFSET_REG, POINTER_CHASE_REG] using hptr
  -- There is no label in front of the code that keeps the pointer.
  have htable' : TableHolds (chaseMachine isa load) (init_stmts ++ (c ++ saveStmts s.id))
      (fun _ => True) (chaseTable ok) (fun c => ok (c.args 1)) := htable
  exact (wlp_reaches htable' hstart hr).2

end run

/-! ## The laws -/

/-- The pointer is the address of a word of segment `i`. -/
def PointsInto (base : BitVec 64) (i : ℕ) (a : BitVec 64) : Prop :=
  ∃ j, InSegment i j ∧ a = wordAddr base j

theorem PointsInto.load {shuffle : ℕ → Shuffle ℕ} {mem : ℕ → ℕ} {base : BitVec 64}
    {load : BitVec 64 → BitVec 64} (hlinked : Linked shuffle mem base load) {i : ℕ} {a : BitVec 64}
    (h : PointsInto base i a) : PointsInto base i (load a) := by
  obtain ⟨j, hj, rfl⟩ := h
  exact ⟨Init shuffle mem j, hj.link, hlinked j hj.lt_num_words⟩

theorem pointsInto_init {base : BitVec 64} {i : ℕ} {a : BitVec 64}
    (h : (init_mem_addrs base)[i]? = some a) : PointsInto base i a := by
  unfold init_mem_addrs at h
  rw [List.getElem?_map] at h
  obtain ⟨offset, hoffset, rfl⟩ := Option.map_eq_some_iff.mp h
  have hwords : ∀ offset ∈ init_offsets 23 0 0, 8 * (offset / 8) = offset := by decide
  refine ⟨offset / 8, inSegment_init ?_, ?_⟩
  · rw [init_pointers, List.getElem?_map, hoffset, Option.map_some]
  · rw [wordAddr, hwords offset (List.mem_of_getElem? hoffset)]

/-- Each saved pointer of a thread points into its own segment. -/
theorem ChaseThread.pointsInto {g : Generator} {shuffle : ℕ → Shuffle ℕ} {mem : ℕ → ℕ}
    {base : BitVec 64} {load : BitVec 64 → BitVec 64} (hlinked : Linked shuffle mem base load)
    {ptrs : List (BitVec 64)} (h : ChaseThread g base load ptrs) {i : ℕ} {a : BitVec 64}
    (ha : ptrs[i]? = some a) : PointsInto base i a := by
  induction h generalizing i a with
  | start => exact pointsInto_init ha
  | block _ hblk hptr hr ih =>
    rw [List.getElem?_set] at ha
    split at ha
    · rename_i hi
      split at ha
      · cases ha
        rw [← hi]
        exact (generate_asm_block_spec hblk).saves (fun _ => PointsInto.load hlinked) (ih hptr) hr
      · cases ha
    · exact ih ha

theorem ChaseThread.length_eq {g : Generator} {base : BitVec 64} {load : BitVec 64 → BitVec 64}
    {ptrs : List (BitVec 64)} (h : ChaseThread g base load ptrs) : ptrs.length = 23 := by
  induction h with
  | start => exact List.length_map _
  | block _ _ _ _ ih => rw [List.length_set, ih]

/-- The segments tile the array, the links of each segment are a bijection of it, the threads
start at the first words, and no chase leaves its segment, in whatever order the words are
linked and whichever blocks a thread runs. -/
theorem chases_stay_in_their_segment (g : Generator) (shuffle : ℕ → Shuffle ℕ) (mem : ℕ → ℕ)
    (base : BitVec 64) (load : BitVec 64 → BitVec 64) (hlinked : Linked shuffle mem base load) :
    num_words = 2 ^ 25 ∧ segments.length = 23 ∧
    (∀ j, j < num_words ↔ ∃ i, InSegment i j) ∧
    (∀ i i' j, InSegment i j → InSegment i' j → i = i') ∧
    (∀ i, Set.BijOn (Init shuffle mem) {j | InSegment i j} {j | InSegment i j}) ∧
    init_mem_addrs base = segments.map (fun s => wordAddr base s.1) ∧
    ∀ ptrs, ChaseThread g base load ptrs →
      ptrs.length = 23 ∧ ∀ i a, ptrs[i]? = some a → PointsInto base i a := by
  refine ⟨by decide, by decide, ?_, ?_, ?_, ?_, ?_⟩
  · intro j
    refine ⟨fun h => (existsUnique_segment h).exists, ?_⟩
    rintro ⟨i, hi⟩
    exact hi.lt_num_words
  · intro i i' j hi hi'
    exact (existsUnique_segment hi.lt_num_words).unique hi hi'
  · intro i
    exact bijOn_segment shuffle mem i
  · have hwords : init_offsets 23 0 0 = segments.map fun s => 8 * s.1 := by decide
    rw [init_mem_addrs, hwords, List.map_map]
    rfl
  · intro ptrs hthread
    exact ⟨hthread.length_eq, fun i a => hthread.pointsInto hlinked⟩

/-- The memory at address 4096 after an `Init` that turns each segment round. -/
def turnedLinks (a : BitVec 64) : BitVec 64 :=
  wordAddr 4096 (Init turned (fun _ => 0) ((a - 4096).toNat / 8))

theorem linked_turnedLinks : Linked turned (fun _ => 0) 4096 turnedLinks := by
  intro j hj
  have hsmall : 8 * j < 2 ^ 64 := by
    have : num_words = 2 ^ 25 := by decide
    omega
  have hj' : (wordAddr 4096 j - 4096).toNat / 8 = j := by
    rw [wordAddr, add_sub_cancel_left, BitVec.toNat_ofNat, Nat.mod_eq_of_lt hsmall]
    omega
  rw [turnedLinks, hj']

/-- The first word of the first segment holds the address of the last one. -/
theorem chases_stay_in_turned_segments :
    Linked turned (fun _ => 0) 4096 turnedLinks ∧ turnedLinks 4096 = 4096 + 56 ∧
    ∀ ptrs, ChaseThread oneLine 4096 turnedLinks ptrs →
      ptrs.length = 23 ∧ ∀ i a, ptrs[i]? = some a → PointsInto 4096 i a := by
  have hfirst : turnedLinks 4096 = 4096 + 56 := by
    have hlink := linked_turnedLinks 0 (by decide)
    rw [(init_turned _).1] at hlink
    exact hlink
  exact ⟨linked_turnedLinks, hfirst, (chases_stay_in_their_segment oneLine turned (fun _ => 0) 4096
    turnedLinks linked_turnedLinks).2.2.2.2.2.2⟩

end ditto.assembly_generator
