-- What the asm statements of a block declare. A compiler knows of a written
-- register only from the outputs and the clobbers of its statement. The
-- statements around the body of a block each write a register that they do
-- not declare.
import Ditto.WorkingSet

open LabelMachine
open ditto.data_dependency_analyzer (GpReg)

namespace ditto.assembly_generator

/-! ## What an instruction writes -/

/-- The destinations of an instruction: its first operand, and the registers that the
instruction set gives it without a name. -/
def Inst.written (i : Inst) : List Operand :=
  match i.op, i.operands with
  | .test, _ | .cmp, _ => []
  | .mul, _ | .imul, [_] | .rdtsc, _ => [gp .a, gp .d]
  | .rep_movsb, _ => [gp .si, gp .di, gp .c]
  | .ret, _ => [gp .sp]
  | _, dst :: _ => [dst]
  | _, [] => []

def stmt_written : Stmt → List Operand
  | .inst i => i.written
  | .call _ => [gp .sp]
  | _ => []

/-- Every other register keeps its value. -/
theorem Cpu.regs_run_of_not_written (tsc : BitVec 64) (c : Cpu) (i : Inst) (r : GpReg)
    (h : gp r ∉ i.written) : (c.run tsc i).regs r = c.regs r := by
  unfold Cpu.run
  split
  · rename_i dst src hop hoperands
    simp only [Inst.written, hop, hoperands, List.mem_singleton] at h
    exact regs_write h
  · rename_i dst src hop hoperands
    simp only [Inst.written, hop, hoperands, List.mem_singleton] at h
    exact regs_write h
  · rename_i dst src hop hoperands
    simp only [Inst.written, hop, hoperands, List.mem_singleton] at h
    exact regs_write h
  · rfl
  · rename_i src hop hoperands
    simp only [Inst.written, hop, List.mem_cons, not_or] at h
    exact (regs_write h.2.1).trans (regs_write h.1)
  · rename_i hop hoperands
    simp only [Inst.written, hop, List.mem_cons, not_or] at h
    exact (regs_write h.2.1).trans (regs_write h.1)
  · rfl

/-! ## What a statement declares -/

/-- A written register must be a clobber of the statement, and a written operand must be one
of its outputs. -/
def AsmStatement.declares (a : AsmStatement) : Operand → Bool
  | .reg (.gp r) | .reg32 r => decide (r ∈ a.clobbers)
  | .arg k => decide (k < a.outputs.length)
  | _ => true

/-- The statement declares all that its instructions write. -/
def AsmStatement.DeclaresWrites (a : AsmStatement) : Prop :=
  ∀ st ∈ a.stmts, ∀ o ∈ stmt_written st, a.declares o = true

def AsmBlock.statements (blk : AsmBlock) : List AsmStatement := blk.head ++ blk.body ++ blk.tail

theorem AsmStatement.not_declaresWrites {a : AsmStatement} {st : Stmt} {o : Operand}
    (hst : st ∈ a.stmts) (ho : o ∈ stmt_written st) (hnot : a.declares o = false) :
    ¬ a.DeclaresWrites := by
  intro h
  rw [h st hst o ho] at hnot
  cases hnot

section statements

variable (mem_id : ℕ)

theorem mem_stmts_operand_statement {stmts : List Stmt} {st : Stmt} (h : st ∈ stmts) :
    st ∈ (operand_statement mem_id stmts).stmts :=
  List.mem_flatten.mpr ⟨[st], List.mem_map.mpr ⟨st, h, rfl⟩, List.mem_singleton.mpr rfl⟩

/-- The first statement loads the pointer into `r13`. -/
theorem init_hides_r13 : ¬ (operand_statement mem_id init_stmts).DeclaresWrites := by
  apply @AsmStatement.not_declaresWrites _ (.inst ⟨.mov, [gp POINTER_CHASE_REG, .arg 4]⟩)
    (gp POINTER_CHASE_REG)
  · apply mem_stmts_operand_statement
    decide
  · decide
  · rfl

/-- The second statement has no clobbers at all, and `rdtsc` writes `rax` and `rdx`. -/
theorem rand_hides_rax : ¬ (plain_statement (rand_stmts.map fun i => [i])).DeclaresWrites := by
  apply @AsmStatement.not_declaresWrites _ (.inst ⟨.rdtsc, []⟩) (gp .a)
  · decide
  · decide
  · rfl

/-- The start of a turn multiplies in `rax` and `rdx`. -/
theorem loop_hides_rax (b : BlockId) (mem_size shift : ℕ) :
    ¬ (operand_statement mem_id (loop_stmts b mem_size shift)).DeclaresWrites := by
  apply @AsmStatement.not_declaresWrites _ (.inst ⟨.mul, [gp RAND_REG]⟩) (gp .a)
  · apply mem_stmts_operand_statement
    simp [loop_stmts]
  · decide
  · rfl

/-- The end of a turn counts in `rdi`. -/
theorem tail_hides_rdi (b : BlockId) (shift turns : ℕ) :
    ¬ (operand_statement mem_id (tail_stmts b shift turns)).DeclaresWrites := by
  apply @AsmStatement.not_declaresWrites _ (.inst ⟨.mov, [gp .di, .arg 5]⟩) (gp .di)
  · apply mem_stmts_operand_statement
    simp [tail_stmts]
  · decide
  · rfl

end statements

/-- No statement around the body of a block declares all that it writes. -/
theorem BlockFrom.hides {g : Generator} {s : Submission} {d : BlockDraws} {blk : AsmBlock}
    (h : BlockFrom g s d blk) : ∀ a ∈ blk.head ++ blk.tail, ¬ a.DeclaresWrites := by
  obtain ⟨lines, lines', -, -, -, rfl⟩ := h.lines
  intro a ha
  simp only [block_text, List.cons_append, List.nil_append, List.mem_cons, List.not_mem_nil,
    or_false] at ha
  rcases ha with rfl | rfl | rfl | rfl
  · exact init_hides_r13 _
  · exact rand_hides_rax
  · exact loop_hides_rax _ _ _ _
  · exact tail_hides_rdi _ _ _ _

theorem BlockFrom.exists_head {g : Generator} {s : Submission} {d : BlockDraws} {blk : AsmBlock}
    (h : BlockFrom g s d blk) : ∃ a, a ∈ blk.head := by
  obtain ⟨lines, lines', -, -, -, rfl⟩ := h.lines
  exact ⟨_, List.mem_cons_self⟩

/-! ## The laws -/

/-- The text of a block declares all that it writes exactly when there is no text, because the
drawn instructions have no data access. In a text, none of the statements around the body
declares all that it writes. -/
theorem block_declares_its_writes_iff_empty {g : Generator} {s : Submission} {d : BlockDraws}
    {text : Option AsmBlock} (h : generate_asm_block g s d = .ok text) :
    ∃ lines, body_lines s d = .ok lines ∧
      ((∀ blk, text = some blk → ∀ a ∈ blk.statements, a.DeclaresWrites) ↔
        num_memaddrs lines = 0) ∧
      ∀ blk, text = some blk → ∀ a ∈ blk.head ++ blk.tail, ¬ a.DeclaresWrites := by
  cases text with
  | none =>
    obtain ⟨lines, hlines, hcount⟩ := lines_of_empty_block h
    exact ⟨lines, hlines, ⟨fun _ => hcount, by simp⟩, by simp⟩
  | some blk =>
    have hfrom := generate_asm_block_spec h
    obtain ⟨a, ha⟩ := hfrom.exists_head
    obtain ⟨lines, _, hlines, hcount, _⟩ := hfrom.lines
    have hhides : ∀ blk', some blk = some blk' →
        ∀ a ∈ blk'.head ++ blk'.tail, ¬ a.DeclaresWrites := by
      rintro blk' ⟨⟩
      exact hfrom.hides
    refine ⟨lines, hlines, ⟨?_, fun hzero => by omega⟩, hhides⟩
    intro hall
    have hdeclares := hall blk rfl a (by simp [AsmBlock.statements, ha])
    exact absurd hdeclares (hfrom.hides a (List.mem_append_left _ ha))

/-- The block of two loads hides the writes of its statements. -/
theorem loadBlock_hides_its_writes :
    ¬ ∀ (g : Generator) (s : Submission) (d : BlockDraws) (blk : AsmBlock),
      generate_asm_block g s d = .ok (some blk) → ∀ a ∈ blk.statements, a.DeclaresWrites := by
  intro h
  obtain ⟨blk, hblk⟩ := loadBlock_ok
  have hfrom := generate_asm_block_spec hblk
  obtain ⟨a, ha⟩ := hfrom.exists_head
  have hdeclares := h oneLine loadBlock loadDraws blk hblk a (by simp [AsmBlock.statements, ha])
  exact hfrom.hides a (List.mem_append_left _ ha) hdeclares

/-- The block of two loads has two addresses, so some statement of it hides its writes. -/
theorem loadBlock_with_two_addresses_hides_its_writes :
    ∃ blk lines, generate_asm_block oneLine loadBlock loadDraws = .ok (some blk) ∧
      body_lines loadBlock loadDraws = .ok lines ∧ num_memaddrs lines = 2 ∧
      ¬ ∀ a ∈ blk.statements, a.DeclaresWrites := by
  have hcount : (body_lines loadBlock loadDraws).map num_memaddrs = .ok 2 := by decide +kernel
  obtain ⟨blk, hblk⟩ := loadBlock_ok
  obtain ⟨lines, hlines, hiff, -⟩ := block_declares_its_writes_iff_empty hblk
  rw [hlines] at hcount
  have htwo : num_memaddrs lines = 2 := Except.ok.inj hcount
  refine ⟨blk, lines, hblk, hlines, htwo, fun hall => ?_⟩
  have hzero := hiff.mp fun blk' heq => Option.some.inj heq ▸ hall
  omega

end ditto.assembly_generator
