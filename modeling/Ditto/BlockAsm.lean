-- One block of the generated file: the statements in front of the body, the
-- body, and the statements behind it. A block without a data access is the
-- empty text.
import Ditto.Dispatch
import Ditto.Lib.Double
import Ditto.MemAddrs

open LabelMachine
open ditto.data_dependency_analyzer (GpReg)

namespace ditto.assembly_generator

/-! ## The text of a block -/

/-- The C variables that the generated code hands to an asm statement. -/
inductive CVar
  | next_mem_addr | next_pointer_chasing_mem_addr
  | mem_data | curr_mem_addrs (mem_id : ℕ) | curr_pointer_chasing_mem_addrs (mem_id : ℕ) | req_id
deriving DecidableEq

/-- One `__asm__ __volatile__` statement. The outputs and the inputs are its operands `%0`, `%1`
and so on, in this order. -/
structure AsmStatement where
  lines : List (List Stmt)
  outputs : List CVar
  inputs : List CVar
  clobbers : List GpReg
deriving DecidableEq

/-- The text that one call of `generate_asm_block` returns. `head` is `block_asm_prefix` and
`tail` is `block_asm_suffix` of the source. -/
structure AsmBlock where
  submission : Submission
  mem_id : ℕ
  head : List AsmStatement
  body : List AsmStatement
  tail : List AsmStatement
deriving DecidableEq

/-- A statement without operands. -/
def plain_statement (lines : List (List Stmt)) : AsmStatement := ⟨lines, [], [], []⟩

/-- A statement with the operands that the head and the tail of a block share. -/
def operand_statement (mem_id : ℕ) (stmts : List Stmt) : AsmStatement where
  lines := stmts.map fun s => [s]
  outputs := [.next_mem_addr, .next_pointer_chasing_mem_addr]
  inputs := [.mem_data, .curr_mem_addrs mem_id, .curr_pointer_chasing_mem_addrs mem_id, .req_id]
  clobbers := [BASE_ADDR_REG, TOP_ADDR_REG, ADDR_OFFSET_REG, LOOP_IDX_REG, RAND_REG]

def RAND_A : ℕ := 1103515245
def RAND_C : ℕ := 12345

def gp (r : GpReg) : Operand := .reg (.gp r)

/-- The registers of a block at its start: the request, the saved address and the pointer. -/
def init_stmts : List Stmt :=
  [.inst ⟨.mov, [gp LOOP_IDX_REG, .arg 5]⟩,
   .inst ⟨.mov, [gp ADDR_OFFSET_REG, .arg 3]⟩,
   .inst ⟨.mov, [gp POINTER_CHASE_REG, .arg 4]⟩]

def rand_stmts : List Stmt := [.inst ⟨.rdtsc, []⟩, .inst ⟨.mov, [gp RAND_REG, gp .a]⟩]

/-- The start of one turn. An address above the top goes back to the base. -/
def loop_stmts (b : BlockId) (mem_size shift_size : ℕ) : List Stmt :=
  [.label (b.label .loop_start),
   .inst ⟨.lea, [gp BASE_ADDR_REG, .argMem 2 0]⟩,
   .inst ⟨.lea, [gp TOP_ADDR_REG, .argMem 2 (mem_size - shift_size)]⟩,
   .inst ⟨.add, [gp LOOP_IDX_REG, .imm 1]⟩,
   -- The next random number.
   .inst ⟨.mov, [gp .a, .imm RAND_A]⟩,
   .inst ⟨.mul, [gp RAND_REG]⟩,
   .inst ⟨.mov, [gp RAND_REG, gp .a]⟩,
   .inst ⟨.add, [gp RAND_REG, .imm RAND_C]⟩,
   .inst ⟨.cmp, [gp ADDR_OFFSET_REG, gp TOP_ADDR_REG]⟩,
   .jcc .le (b.label .bypass_reset),
   .inst ⟨.mov, [gp ADDR_OFFSET_REG, gp BASE_ADDR_REG]⟩,
   .label (b.label .bypass_reset)]

/-- The end of one turn, and the target of the calls of the body. -/
def tail_stmts (b : BlockId) (shift_size turns : ℕ) : List Stmt :=
  [.inst ⟨.add, [gp ADDR_OFFSET_REG, .imm shift_size]⟩,
   .inst ⟨.mov, [gp .di, .arg 5]⟩,
   .inst ⟨.add, [gp .di, .imm turns]⟩,
   .inst ⟨.cmp, [gp LOOP_IDX_REG, gp .di]⟩,
   .jcc .l (b.label .loop_start),
   .inst ⟨.mov, [.arg 0, gp ADDR_OFFSET_REG]⟩,
   .inst ⟨.mov, [.arg 1, gp POINTER_CHASE_REG]⟩,
   .jmp (b.label .end_func),
   .label (b.label .dummy_call),
   .inst ⟨.ret, []⟩,
   .label (b.label .end_func)]

/-! ## The generator -/

/-- The attributes of the generator that the blocks read. -/
structure Generator where
  num_reqs_per_iteration : ℕ
  num_block_replicas : PyDict ℕ ℤ
  num_asm_functions : ℕ
  num_dynamic_insts : ℤ
  num_reps : ℕ
  page_multiplier : ℕ
  dcache_stats : PyDict ℕ ℚ
  icache_stats : PyDict ℕ ℚ
  debug : Bool

/-- The random draws of one call of `generate_asm_block`. -/
structure BlockDraws where
  insts : ℕ → Draw
  pieces : Shuffle Asm
  distances : ℕ → Distances
  indices : Shuffle ℕ

def Submission.id (s : Submission) : BlockId := ⟨s.function_id, s.block_id, s.replica_id⟩

/-- The lines of the body with their registers, before they get addresses. -/
def body_lines (s : Submission) (d : BlockDraws) : Except PyError (List (List Stmt)) := do
  let asm ← unshuffled s.id (drawn s.num_static_insts s.num_static_insts.toNat d.insts 0)
  allocate_regs d.distances (Text.split (shuffle_uncond_blocks d.pieces asm s.id))

/-- The asm statements of the body: one, or one for each line when debugging. -/
def body_statements (debug : Bool) (lines : List (List Stmt)) : List AsmStatement :=
  if debug then (lines.filter (· ≠ [])).map fun line => plain_statement [line]
  else [plain_statement lines]

/-- The number of turns in the text, with the operations on doubles. The product with the integer
1 that `max(1, ..)` gives back is one of integers. -/
def num_turns (num_dynamic_insts num_static_insts : ℤ) : ℤ :=
  let rounded := roundEven (toDouble (num_dynamic_insts / num_static_insts))
  let num_dynamic_insts : ℤ :=
    if rounded ≤ 1 then num_static_insts
    else truncate (toDouble (toDouble num_static_insts * rounded))
  truncate (toDouble (num_dynamic_insts / num_static_insts))

/-- The text around the lines of a body with `num_static_mem_accesses` accesses. -/
def block_text (g : Generator) (s : Submission) (num_static_mem_accesses : ℕ)
    (asm_lines : List (List Stmt)) : AsmBlock :=
  let mem_id := g.dcache_stats.keys.idxOf s.mem_size
  let shift_size := shift_size g.page_multiplier s.mem_size num_static_mem_accesses
  let turns := (num_turns g.num_dynamic_insts s.num_static_insts).toNat
  { submission := s
    mem_id := mem_id
    head := [operand_statement mem_id init_stmts, plain_statement (rand_stmts.map fun i => [i]),
      operand_statement mem_id (loop_stmts s.id s.mem_size shift_size)]
    body := body_statements g.debug asm_lines
    tail := [operand_statement mem_id (tail_stmts s.id shift_size turns)] }

def generate_asm_block (g : Generator) (s : Submission) (d : BlockDraws) :
    Except PyError (Option AsmBlock) :=
  if s.num_static_insts = 0 then .error .zeroDivisionError
  else if s.mem_size ∉ g.dcache_stats.keys then .error .valueError
  else do
    let asm_lines ← body_lines s d
    let num_static_mem_accesses := num_memaddrs asm_lines
    if num_static_mem_accesses < 1 then return none
    else
      let asm_lines ← allocate_mem_addrs g.page_multiplier d.indices asm_lines s.mem_size
        num_static_mem_accesses
      return some (block_text g s num_static_mem_accesses asm_lines)

/-- What is behind a block that is not empty. -/
structure BlockFrom (g : Generator) (s : Submission) (d : BlockDraws) (blk : AsmBlock) : Prop where
  mem_size_mem : s.mem_size ∈ g.dcache_stats.keys
  lines : ∃ lines lines', body_lines s d = .ok lines ∧ 1 ≤ num_memaddrs lines ∧
    allocate_mem_addrs g.page_multiplier d.indices lines s.mem_size (num_memaddrs lines) =
      .ok lines' ∧ blk = block_text g s (num_memaddrs lines) lines'

theorem generate_asm_block_spec {g : Generator} {s : Submission} {d : BlockDraws} {blk : AsmBlock}
    (h : generate_asm_block g s d = .ok (some blk)) : BlockFrom g s d blk := by
  unfold generate_asm_block at h
  split at h
  · cases h
  · split at h
    · cases h
    · rename_i hsize
      obtain ⟨lines, hlines, h⟩ := PyError.ok_of_bind h
      simp only at h
      split at h
      · cases h
      · rename_i hcount
        obtain ⟨lines', hlines', h⟩ := PyError.ok_of_bind h
        cases h
        exact ⟨not_not.mp hsize, lines, lines', hlines, Nat.not_lt.mp hcount, hlines', rfl⟩

/-- An empty text comes from lines without a data access. -/
theorem lines_of_empty_block {g : Generator} {s : Submission} {d : BlockDraws}
    (h : generate_asm_block g s d = .ok none) :
    ∃ lines, body_lines s d = .ok lines ∧ num_memaddrs lines = 0 := by
  unfold generate_asm_block at h
  split at h
  · cases h
  · split at h
    · cases h
    · obtain ⟨lines, hlines, h⟩ := PyError.ok_of_bind h
      simp only at h
      split at h
      · rename_i hcount
        exact ⟨lines, hlines, Nat.lt_one_iff.mp hcount⟩
      · obtain ⟨lines', _, h⟩ := PyError.ok_of_bind h
        cases h

/-! ## The body before it gets addresses -/

/-- The instructions of a template. -/
def Template.insts : Template → List Inst
  | .line i | .glued i | .cond i _ => [i]
  | _ => []

/-- What stands in the templates for the operands: places for registers and data, and `st0`. -/
def placeholders : List Operand :=
  [X_REG, R_REG, W_REG, X_XMMREG, R_XMMREG, W_XMMREG, R_STREG, ST0, .memaddr]

/-- Only the test of a branch and the chase have other operands. -/
theorem insts_of_template {d : Draw} {t : Template} (h : template d = .ok t) : ∀ i ∈ t.insts,
    i ∈ (cond_template d).insts ∨
      i = ⟨.mov, [.reg (.gp POINTER_CHASE_REG), .mem POINTER_CHASE_REG 0]⟩ ∨
      ∀ o ∈ i.operands, o ∈ placeholders := by
  have hall : ∀ t ∈ templates d, t = cond_template d ∨ ∀ i ∈ t.insts,
      i = ⟨.mov, [.reg (.gp POINTER_CHASE_REG), .mem POINTER_CHASE_REG 0]⟩ ∨
        ∀ o ∈ i.operands, o ∈ placeholders := by
    have hplaces : ∀ {t : Template} {op : Op} {operands : List Operand}, t.insts = [⟨op, operands⟩] →
        (∀ o ∈ operands, o ∈ placeholders) → ∀ i ∈ t.insts,
          i = ⟨.mov, [.reg (.gp POINTER_CHASE_REG), .mem POINTER_CHASE_REG 0]⟩ ∨
            ∀ o ∈ i.operands, o ∈ placeholders := by
      intro t op operands hinsts hoperands i hi
      rw [hinsts, List.mem_singleton] at hi
      subst hi
      exact .inr hoperands
    unfold templates
    simp only [List.forall_mem_cons]
    repeat' apply And.intro
    all_goals first
      | exact .inl trivial
      | exact List.forall_mem_nil _
      | exact .inr (List.forall_mem_nil _)
      | exact .inr (List.forall_mem_singleton.mpr (.inl rfl))
      | exact .inr (hplaces rfl (by decide))
  intro i hi
  rcases hall t (mem_templates h) with rfl | ht
  · exact .inl hi
  · exact .inr (ht i hi)

/-- No operand of the instruction is at the address register. -/
def NoOffset (i : Inst) : Prop := ∀ offset, .mem ADDR_OFFSET_REG offset ∉ i.operands

theorem cond_template_no_offset (d : Draw) : ∀ i ∈ (cond_template d).insts, NoOffset i := by
  unfold cond_template
  split <;> simp [Template.insts, NoOffset]

/-- No template writes an address of its own. -/
theorem template_no_offset {d : Draw} {t : Template} (h : template d = .ok t) :
    ∀ i ∈ t.insts, NoOffset i := by
  intro i hi
  rcases insts_of_template h i hi with hcond | rfl | hplaces
  · exact cond_template_no_offset d i hcond
  · simp [NoOffset, POINTER_CHASE_REG, ADDR_OFFSET_REG]
  · intro offset hmem
    have hplace := hplaces _ hmem
    simp [placeholders, X_REG, R_REG, W_REG, X_XMMREG, R_XMMREG, W_XMMREG, R_STREG, ST0] at hplace

theorem mem_insts_of_text {b : BlockId} {idx : LabelIdx} {t : Template} {i : Inst}
    (h : .inst i ∈ Text.items (t.text b idx)) : i ∈ t.insts := by
  cases t <;> simp_all [Template.text, Template.insts, Text.items, Text.line, List.reduceOption]

/-- Each statement of the text comes from the template of a draw. -/
theorem exists_template_of_mem_texts {b : BlockId} {idx : LabelIdx} {ds : List Draw}
    {ts : List Template} (h : ds.mapM template = .ok ts) {st : Stmt}
    (hst : st ∈ Text.items (texts b idx ts)) :
    ∃ d t idx', template d = .ok t ∧ st ∈ Text.items (t.text b idx') := by
  induction ds generalizing idx ts with
  | nil =>
    cases h
    cases hst
  | cons d ds ih =>
    rw [List.mapM_cons] at h
    obtain ⟨t, ht, h⟩ := PyError.ok_of_bind h
    obtain ⟨ts, hts, h⟩ := PyError.ok_of_bind h
    cases h
    unfold texts at hst
    rw [Text.items_append] at hst
    rcases List.mem_append.mp hst with hst | hst
    · exact ⟨d, t, idx, ht, hst⟩
    · exact ih hts hst

/-- The statements before the shuffle: those of the templates, between a label and a jump. -/
theorem mem_unshuffled {b : BlockId} {ds : List Draw} {asm : Asm} (h : unshuffled b ds = .ok asm)
    {st : Stmt} (hst : st ∈ Text.items asm) :
    st = .label (b.label .asm_start) ∨ st = .jmp (b.label .asm_end) ∨
      ∃ d t idx, template d = .ok t ∧ st ∈ Text.items (t.text b idx) := by
  unfold unshuffled at h
  obtain ⟨insts, hinsts, h⟩ := PyError.ok_of_bind h
  obtain ⟨ts, hts, rfl⟩ := insts_text_eq hinsts
  cases h
  simp only [Text.items_append, Text.items_line, List.mem_append, List.mem_singleton] at hst
  rcases hst with (hst | hst) | hst
  · exact .inl hst
  · exact .inr (.inr (exists_template_of_mem_texts hts hst))
  · exact .inr (.inl hst)

theorem unshuffled_no_offset {b : BlockId} {ds : List Draw} {asm : Asm}
    (h : unshuffled b ds = .ok asm) {i : Inst} (hi : .inst i ∈ Text.items asm) : NoOffset i := by
  rcases mem_unshuffled h hi with hi | hi | ⟨d, t, idx, ht, hi⟩
  · cases hi
  · cases hi
  · exact template_no_offset ht i (mem_insts_of_text hi)

/-- The shuffle adds one jump and one label. -/
theorem mem_of_shuffle {shuffle : Shuffle Asm} {asm : Asm} {b : BlockId} {st : Stmt}
    (h : st ∈ Text.items (shuffle_uncond_blocks shuffle asm b)) :
    st = .jmp (b.label .asm_start) ∨ st = .label (b.label .asm_end) ∨ st ∈ Text.items asm := by
  have hperm := ((shuffle.perm (split_blocks asm)).map Text.items).flatten
  rw [flatten_split_blocks] at hperm
  rw [items_shuffle, List.mem_cons, List.mem_append, hperm.mem_iff, List.mem_singleton] at h
  tauto

theorem inst_mem_of_shuffle {shuffle : Shuffle Asm} {asm : Asm} {b : BlockId} {i : Inst}
    (h : .inst i ∈ Text.items (shuffle_uncond_blocks shuffle asm b)) : .inst i ∈ Text.items asm := by
  rcases mem_of_shuffle h with h | h | h
  · cases h
  · cases h
  · exact h

theorem body_lines_no_offset {s : Submission} {d : BlockDraws} {lines : List (List Stmt)}
    (h : body_lines s d = .ok lines) {line : List Stmt} (hl : line ∈ lines) (offset : ℕ) :
    ¬ Offset line offset := by
  unfold body_lines at h
  obtain ⟨asm, hasm, h⟩ := PyError.ok_of_bind h
  obtain ⟨line', hl', hkeeps⟩ := exists_of_forall₂ (allocate_regs_keeps h) hl
  intro hoff
  have hcount := hkeeps.count_eq (.mem ADDR_OFFSET_REG offset) (by simp) (by simp)
  have hmem : .mem ADDR_OFFSET_REG offset ∈ line_operands line' := by
    rw [← List.count_pos_iff, ← hcount]
    exact List.count_pos_iff.mpr hoff
  obtain ⟨st, hst, ho⟩ := List.mem_flatMap.mp hmem
  cases st with
  | inst i =>
    have hi : .inst i ∈ Text.items (shuffle_uncond_blocks d.pieces asm s.id) := by
      rw [← Text.flatten_split]
      exact List.mem_flatten.mpr ⟨line', hl', hst⟩
    exact unshuffled_no_offset hasm (inst_mem_of_shuffle hi) offset ho
  | _ => cases ho

end ditto.assembly_generator
