-- The instructions of a block before the shuffle. For each type of
-- instruction the generator has a template, and the random choices of one
-- call are a record here. Two templates have no line end, so the next
-- instruction goes on the same line.
import Ditto.Asm
import Ditto.Lib.PyDict
import Mathlib.Data.Fin.VecNotation

open LabelMachine

namespace ditto.assembly_generator

/-! ## The types of instructions -/

inductive Ext
  | base | sse | avx
deriving DecidableEq

inductive Catagory
  | arith_int | arith_fp | mul_int | mul_fp | div_int | div_fp
  | branch_uncond | branch_cond | mov_uncond | mov_cond | crc32 | other
deriving DecidableEq

inductive MemRwx
  | no_mem | mem_r | mem_w | mem_x
deriving DecidableEq

/-- The keys of the instruction mix. -/
inductive OpType
  | op (ext : Ext) (catagory : Catagory) (mem_rwx : MemRwx)
  | func_call
  | func_ret
  | rep_movs | rep_lods | rep_stos
deriving DecidableEq

def Ext.text : Ext → String
  | .base => "base"
  | .sse => "sse"
  | .avx => "avx"

def Catagory.text : Catagory → String
  | .arith_int => "arith.int"
  | .arith_fp => "arith.fp"
  | .mul_int => "mul.int"
  | .mul_fp => "mul.fp"
  | .div_int => "div.int"
  | .div_fp => "div.fp"
  | .branch_uncond => "branch.uncond"
  | .branch_cond => "branch.cond"
  | .mov_uncond => "mov.uncond"
  | .mov_cond => "mov.cond"
  | .crc32 => "crc32"
  | .other => "other"

def MemRwx.text : MemRwx → String
  | .no_mem => "no_mem"
  | .mem_r => "mem_r"
  | .mem_w => "mem_w"
  | .mem_x => "mem_x"

def OpType.text : OpType → String
  | .op ext catagory mem_rwx => ext.text ++ "." ++ catagory.text ++ "." ++ mem_rwx.text
  | .func_call => "base.func.call.mem_w"
  | .func_ret => "base.func.ret.mem_r"
  | .rep_movs => "base.rep.movs"
  | .rep_lods => "base.rep.lods"
  | .rep_stos => "base.rep.stos"

/-! ## The templates -/

def BASE_ARITH_INT_OPS : Fin 4 → Op := ![.and, .or, .sub, .add]
def SSE_ARITH_FP_OPS : Fin 2 → Op := ![.addsd, .subsd]
def BASE_MUL_INT_OPS : Fin 2 → Op := ![.mul, .imul]
def BASE_MUL_FP_OPS : Fin 1 → Op := ![.fmul]
def SSE_MUL_FP_OPS : Fin 1 → Op := ![.mulsd]

/-- The random choices of one instruction. `bit_mask` is the mask of the drawn pair of
branch rates. -/
structure Draw where
  op_type : OpType
  choice : ℕ
  bit_mask : ℕ
  hard_branch_flag : Bool
  randint : Fin 32
  pointer_chase_flag : Bool
deriving DecidableEq

/-- The model of `random.choice(ops)`. -/
def Draw.pick (d : Draw) {n : ℕ} [NeZero n] (ops : Fin n → Op) : Op := ops (Fin.ofNat n d.choice)

def rightRotate (n d : ℕ) : ℕ := (n >>> d) ||| ((n <<< (32 - d)) &&& 0xFFFFFFFF)

/-- What one call of the generator writes. A `glued` instruction has no line end. -/
inductive Template
  | line (i : Inst)
  | glued (i : Inst)
  | uncond
  | cond (test : Inst) (c : Cond)
  | call
  | empty
deriving DecidableEq

/-- The conditional branch. The outcome that it plans for is never taken, so the first
case is dead. -/
def cond_template (d : Draw) : Template :=
  let taken := 0
  if d.hard_branch_flag = false then
    if 1 ≤ 2 * taken then
      .cond ⟨.test, [.reg32 LOOP_IDX_REG, .imm d.bit_mask]⟩ .nz
    else
      .cond ⟨.test, [.reg32 LOOP_IDX_REG, .imm (1 <<< d.randint.val)]⟩ .z
  else
    .cond ⟨.test, [.reg32 RAND_REG, .imm (rightRotate d.bit_mask d.randint)]⟩ .z

def X_REG : Operand := .slot .X .REG
def R_REG : Operand := .slot .R .REG
def W_REG : Operand := .slot .W .REG
def X_XMMREG : Operand := .slot .X .XMMREG
def R_XMMREG : Operand := .slot .R .XMMREG
def W_XMMREG : Operand := .slot .W .XMMREG
def R_STREG : Operand := .slot .R .STREG
def ST0 : Operand := .reg (.st 0)

/-- The template of an instruction type. The branches of the source for `cmovz` come behind
the branches for `mov` with the same types, so they write nothing. -/
def template (d : Draw) : Except PyError Template :=
  match d.op_type with
  | .op .base .arith_int .mem_r => .ok (.line ⟨d.pick BASE_ARITH_INT_OPS, [X_REG, .memaddr]⟩)
  | .op .base .arith_int .mem_x
  | .op .sse .arith_int .mem_x => .ok (.line ⟨d.pick BASE_ARITH_INT_OPS, [.memaddr, R_REG]⟩)
  | .op .base .arith_int .no_mem => .ok (.line ⟨d.pick BASE_ARITH_INT_OPS, [X_REG, R_REG]⟩)
  | .op .base .arith_fp .mem_r
  | .op .sse .arith_int .mem_r
  | .op .avx .arith_fp .mem_r
  | .op .sse .arith_fp .mem_r => .ok (.line ⟨d.pick SSE_ARITH_FP_OPS, [X_XMMREG, .memaddr]⟩)
  | .op .base .arith_fp .no_mem
  | .op .sse .arith_int .no_mem
  | .op .avx .arith_fp .no_mem
  | .op .sse .arith_fp .no_mem => .ok (.line ⟨d.pick SSE_ARITH_FP_OPS, [X_XMMREG, R_XMMREG]⟩)
  | .op .base .mul_int .mem_r => .ok (.line ⟨d.pick BASE_MUL_INT_OPS, [.memaddr]⟩)
  | .op .base .mul_int .no_mem => .ok (.line ⟨d.pick BASE_MUL_INT_OPS, [R_REG]⟩)
  | .op .base .mul_fp .no_mem => .ok (.glued ⟨d.pick BASE_MUL_FP_OPS, [ST0, R_STREG]⟩)
  | .op .base .mul_fp .mem_r => .ok (.line ⟨d.pick BASE_MUL_FP_OPS, [ST0, .memaddr]⟩)
  | .op .sse .mul_fp .mem_r => .ok (.line ⟨d.pick SSE_MUL_FP_OPS, [X_XMMREG, .memaddr]⟩)
  | .op .sse .mul_fp .no_mem => .ok (.line ⟨d.pick SSE_MUL_FP_OPS, [X_XMMREG, R_XMMREG]⟩)
  -- A division is a multiplication for now.
  | .op .base .div_int .mem_r
  | .op .base .div_int .no_mem => .ok (.line ⟨d.pick BASE_MUL_INT_OPS, [R_REG]⟩)
  | .op .sse .div_fp .mem_r
  | .op .sse .div_fp .no_mem => .ok (.line ⟨d.pick SSE_MUL_FP_OPS, [X_XMMREG, .memaddr]⟩)
  | .op .base .div_fp .mem_r
  | .op .base .div_fp .no_mem => .ok (.glued ⟨d.pick BASE_MUL_FP_OPS, [ST0, R_STREG]⟩)
  | .op .base .branch_uncond .mem_r
  | .op .base .branch_uncond .no_mem => .ok .uncond
  | .op .base .branch_cond .mem_r
  | .op .base .branch_cond .no_mem => .ok (cond_template d)
  | .op .base .mov_uncond .mem_r
  | .op .base .mov_cond .mem_r =>
    if d.pointer_chase_flag then
      .ok (.line ⟨.mov, [.reg (.gp POINTER_CHASE_REG), .mem POINTER_CHASE_REG 0]⟩)
    else .ok (.line ⟨.mov, [W_REG, .memaddr]⟩)
  | .op .base .mov_uncond .mem_w
  | .op .base .mov_cond .mem_w => .ok (.line ⟨.mov, [.memaddr, R_REG]⟩)
  | .op .base .mov_uncond .no_mem
  | .op .base .mov_cond .no_mem => .ok (.line ⟨.mov, [W_REG, R_REG]⟩)
  | .op .sse .mov_uncond .mem_r
  | .op .sse .mov_cond .mem_r
  | .op .avx .mov_uncond .mem_r
  | .op .avx .mov_cond .mem_r => .ok (.line ⟨.movsd, [W_XMMREG, .memaddr]⟩)
  | .op .sse .mov_uncond .mem_w
  | .op .sse .mov_cond .mem_w
  | .op .avx .mov_uncond .mem_w
  | .op .avx .mov_cond .mem_w => .ok (.line ⟨.movsd, [.memaddr, R_XMMREG]⟩)
  | .op .sse .mov_uncond .no_mem
  | .op .sse .mov_cond .no_mem
  | .op .avx .mov_uncond .no_mem
  | .op .avx .mov_cond .no_mem => .ok (.line ⟨.movsd, [W_XMMREG, R_XMMREG]⟩)
  | .func_call => .ok .call
  | .func_ret => .ok .empty
  | .op .sse .crc32 .no_mem => .ok (.line ⟨.crc32, [W_REG, R_REG]⟩)
  | .op _ .other .mem_r
  | .op _ .other .mem_w
  | .op _ .other .mem_x => .ok (.line ⟨d.pick BASE_MUL_INT_OPS, [.memaddr]⟩)
  | .op _ .other .no_mem => .ok (.line ⟨d.pick BASE_MUL_INT_OPS, [R_REG]⟩)
  | op_type => .error (.exception ("Invalid op_type: " ++ op_type.text))

/-- All templates for one draw. -/
def templates (d : Draw) : List Template :=
  [.line ⟨d.pick BASE_ARITH_INT_OPS, [X_REG, .memaddr]⟩,
   .line ⟨d.pick BASE_ARITH_INT_OPS, [.memaddr, R_REG]⟩,
   .line ⟨d.pick BASE_ARITH_INT_OPS, [X_REG, R_REG]⟩,
   .line ⟨d.pick SSE_ARITH_FP_OPS, [X_XMMREG, .memaddr]⟩,
   .line ⟨d.pick SSE_ARITH_FP_OPS, [X_XMMREG, R_XMMREG]⟩,
   .line ⟨d.pick BASE_MUL_INT_OPS, [.memaddr]⟩,
   .line ⟨d.pick BASE_MUL_INT_OPS, [R_REG]⟩,
   .glued ⟨d.pick BASE_MUL_FP_OPS, [ST0, R_STREG]⟩,
   .line ⟨d.pick BASE_MUL_FP_OPS, [ST0, .memaddr]⟩,
   .line ⟨d.pick SSE_MUL_FP_OPS, [X_XMMREG, .memaddr]⟩,
   .line ⟨d.pick SSE_MUL_FP_OPS, [X_XMMREG, R_XMMREG]⟩,
   .uncond,
   cond_template d,
   .line ⟨.mov, [.reg (.gp POINTER_CHASE_REG), .mem POINTER_CHASE_REG 0]⟩,
   .line ⟨.mov, [W_REG, .memaddr]⟩,
   .line ⟨.mov, [.memaddr, R_REG]⟩,
   .line ⟨.mov, [W_REG, R_REG]⟩,
   .line ⟨.movsd, [W_XMMREG, .memaddr]⟩,
   .line ⟨.movsd, [.memaddr, R_XMMREG]⟩,
   .line ⟨.movsd, [W_XMMREG, R_XMMREG]⟩,
   .call,
   .empty,
   .line ⟨.crc32, [W_REG, R_REG]⟩]

/-- What holds of all templates holds of the one that the generator takes. -/
theorem mem_templates {d : Draw} {t : Template} (h : template d = .ok t) : t ∈ templates d := by
  obtain ⟨op_type, choice, bit_mask, hard_branch_flag, randint, pointer_chase_flag⟩ := d
  cases op_type with
  | op ext catagory mem_rwx =>
    cases catagory <;> cases ext <;> cases mem_rwx
    all_goals dsimp only [template] at h
    -- Only the loads split here, on the pointer chase.
    all_goals try split at h
    all_goals cases h
    all_goals simp only [templates, List.mem_cons, true_or, or_true]
  | func_call =>
    cases h
    simp only [templates, List.mem_cons, true_or, or_true]
  | func_ret =>
    cases h
    simp only [templates, List.mem_cons, true_or, or_true]
  | _ => cases h

/-! ## The text of a block before the shuffle -/

/-- The numbers of the next branch labels of a block. -/
structure LabelIdx where
  br_cond_label_idx : ℕ
  br_uncond_label_idx : ℕ
deriving DecidableEq

def Template.text (b : BlockId) (idx : LabelIdx) : Template → Asm
  | .line i => Text.line (.inst i)
  | .glued i => [some (.inst i)]
  | .uncond =>
    let l := b.label (.br_uncond idx.br_uncond_label_idx)
    Text.line (.jmp l) ++ Text.line (.label l)
  | .cond test c =>
    let l := b.label (.br_cond idx.br_cond_label_idx)
    Text.line (.inst test) ++ Text.line (.jcc c l) ++ Text.line (.label l)
  | .call => Text.line (.call (b.label .dummy_call))
  | .empty => []

def Template.next (idx : LabelIdx) : Template → LabelIdx
  | .uncond => { idx with br_uncond_label_idx := idx.br_uncond_label_idx + 1 }
  | .cond _ _ => { idx with br_cond_label_idx := idx.br_cond_label_idx + 1 }
  | _ => idx

def asm_inst_generator (b : BlockId) (idx : LabelIdx) (d : Draw) :
    Except PyError (Asm × LabelIdx) := do
  let t ← template d
  return (t.text b idx, t.next idx)

/-- The instructions of a block, one for each draw. -/
def insts_text (b : BlockId) : LabelIdx → List Draw → Except PyError Asm
  | _, [] => .ok []
  | idx, d :: ds => do
    let (asm, idx) ← asm_inst_generator b idx d
    let rest ← insts_text b idx ds
    return asm ++ rest

/-- How far one instruction brings the loop: a conditional branch counts twice. -/
def OpType.size : OpType → ℤ
  | .op .base .branch_cond .no_mem | .op .base .branch_cond .mem_r => 2
  | _ => 1

/-- The draws that the loop of `generate_asm_block` uses, from `i` on. -/
def drawn (num_static_insts : ℤ) : ℕ → (ℕ → Draw) → ℤ → List Draw
  | 0, _, _ => []
  | fuel + 1, draws, i =>
    if i < num_static_insts then
      draws 0 :: drawn num_static_insts fuel (fun k => draws (k + 1)) (i + (draws 0).op_type.size)
    else []

/-- The text from `asm_start` to the jump to `asm_end`. -/
def unshuffled (b : BlockId) (ds : List Draw) : Except PyError Asm := do
  let asm ← insts_text b ⟨0, 0⟩ ds
  return Text.line (.label (b.label .asm_start)) ++ asm ++ Text.line (.jmp (b.label .asm_end))

/-! ## The laws -/

/-- The text of a list of templates. -/
def texts (b : BlockId) : LabelIdx → List Template → Asm
  | _, [] => []
  | idx, t :: ts => t.text b idx ++ texts b (t.next idx) ts

theorem insts_text_eq {b : BlockId} {idx : LabelIdx} {ds : List Draw} {asm : Asm}
    (h : insts_text b idx ds = .ok asm) :
    ∃ ts, ds.mapM template = .ok ts ∧ asm = texts b idx ts := by
  induction ds generalizing idx asm with
  | nil =>
    cases h
    exact ⟨[], rfl, rfl⟩
  | cons d ds ih =>
    unfold insts_text asm_inst_generator at h
    obtain ⟨⟨asm', idx'⟩, hd, h⟩ := PyError.ok_of_bind h
    obtain ⟨t, ht, hd⟩ := PyError.ok_of_bind hd
    obtain ⟨rest, hrest, h⟩ := PyError.ok_of_bind h
    obtain ⟨ts, hts, rfl⟩ := ih hrest
    cases hd
    cases h
    refine ⟨t :: ts, ?_, rfl⟩
    rw [List.mapM_cons, ht, hts]
    rfl

/-- Every jump of a template names the label behind it. -/
theorem Template.straight {b : BlockId} (idx : LabelIdx) (t : Template) {c : List Stmt}
    (hc : Straight (b.label .asm_end) c) :
    Straight (b.label .asm_end) (Text.items (t.text b idx) ++ c) := by
  cases t with
  | line i => exact .inst hc
  | glued i => exact .inst hc
  | uncond => exact .jmp (by simp [BlockId.label]) (.label hc)
  | cond test c => exact .inst (.jcc (.label hc))
  | call => exact .call hc
  | empty => exact hc

theorem texts_straight {b : BlockId} (idx : LabelIdx) (ts : List Template) {c : List Stmt}
    (hc : Straight (b.label .asm_end) c) :
    Straight (b.label .asm_end) (Text.items (texts b idx ts) ++ c) := by
  induction ts generalizing idx with
  | nil => exact hc
  | cons t ts ih =>
    unfold texts
    rw [Text.items_append, List.append_assoc]
    exact t.straight idx (ih (t.next idx))

/-- A branch label with a number that is not used up. -/
def LabelKind.Behind (idx : LabelIdx) : LabelKind → Prop
  | .br_cond k => idx.br_cond_label_idx ≤ k
  | .br_uncond k => idx.br_uncond_label_idx ≤ k
  | _ => False

theorem LabelKind.Behind.of_next {idx : LabelIdx} {t : Template} {k : LabelKind}
    (h : k.Behind (t.next idx)) : k.Behind idx := by
  cases t <;> cases k <;> simp only [Template.next, Behind] at h ⊢ <;> omega

/-- The labels of one template are used up by it. -/
theorem Template.labels_text (b : BlockId) (idx : LabelIdx) (t : Template) :
    ∃ ks : List LabelKind, labels (Text.items (t.text b idx)) = ks.map b.label ∧ ks.Nodup ∧
      ∀ k ∈ ks, k.Behind idx ∧ ¬ k.Behind (t.next idx) := by
  cases t with
  | line i => exact ⟨[], rfl, List.nodup_nil, by simp⟩
  | glued i => exact ⟨[], rfl, List.nodup_nil, by simp⟩
  | uncond =>
    refine ⟨[.br_uncond idx.br_uncond_label_idx], rfl, List.nodup_singleton _, ?_⟩
    simp [LabelKind.Behind, Template.next]
  | cond test c =>
    refine ⟨[.br_cond idx.br_cond_label_idx], rfl, List.nodup_singleton _, ?_⟩
    simp [LabelKind.Behind, Template.next]
  | call => exact ⟨[], rfl, List.nodup_nil, by simp⟩
  | empty => exact ⟨[], rfl, List.nodup_nil, by simp⟩

/-- The labels of the templates of a block are distinct branch labels of the block. -/
theorem labels_texts (b : BlockId) (idx : LabelIdx) (ts : List Template) :
    ∃ ks : List LabelKind, labels (Text.items (texts b idx ts)) = ks.map b.label ∧ ks.Nodup ∧
      ∀ k ∈ ks, k.Behind idx := by
  induction ts generalizing idx with
  | nil => exact ⟨[], rfl, List.nodup_nil, by simp⟩
  | cons t ts ih =>
    obtain ⟨ks, hks, hnodup, hbehind⟩ := t.labels_text b idx
    obtain ⟨ks', hks', hnodup', hbehind'⟩ := ih (t.next idx)
    refine ⟨ks ++ ks', ?_, ?_, ?_⟩
    · unfold texts
      rw [Text.items_append, labels_append, hks, hks', List.map_append]
    · apply hnodup.append hnodup'
      intro k hk hk'
      exact (hbehind k hk).2 (hbehind' k hk')
    · intro k hk
      rcases List.mem_append.mp hk with hk | hk
      · exact (hbehind k hk).1
      · exact (hbehind' k hk).of_next

theorem call_mem_texts {b : BlockId} {idx : LabelIdx} {ts : List Template} {l : Label}
    (h : .call l ∈ Text.items (texts b idx ts)) : l = b.label .dummy_call := by
  induction ts generalizing idx with
  | nil => cases h
  | cons t ts ih =>
    unfold texts at h
    rw [Text.items_append] at h
    rcases List.mem_append.mp h with h | h
    · cases t <;> simp_all [Template.text, Text.items, Text.line, List.reduceOption]
    · exact ih h

theorem BlockId.label_injective (b : BlockId) : Function.Injective b.label := by
  intro k k' h
  exact congrArg Label.kind h

/-- The code of a block before the shuffle. -/
structure BlockCode (b : BlockId) (code : List Stmt) : Prop where
  straight : Straight (b.label .asm_end) code
  starts : ∃ c, code = .label (b.label .asm_start) :: c
  ends : ∃ c, code = c ++ [.jmp (b.label .asm_end)]
  labels_eq : ∃ ks : List LabelKind, labels code = (.asm_start :: ks).map b.label ∧ ks.Nodup ∧
    ∀ k ∈ ks, k.Behind ⟨0, 0⟩
  calls : ∀ l, .call l ∈ code → l = b.label .dummy_call

theorem unshuffled_spec {b : BlockId} {ds : List Draw} {asm : Asm}
    (h : unshuffled b ds = .ok asm) : BlockCode b (Text.items asm) := by
  unfold unshuffled at h
  obtain ⟨insts, hinsts, h⟩ := PyError.ok_of_bind h
  obtain ⟨ts, -, rfl⟩ := insts_text_eq hinsts
  cases h
  simp only [Text.items_append, Text.items_line, List.cons_append, List.nil_append]
  obtain ⟨ks, hks, hnodup, hbehind⟩ := labels_texts b ⟨0, 0⟩ ts
  constructor
  · exact .label (texts_straight _ ts .stop)
  · exact ⟨_, rfl⟩
  · exact ⟨.label (b.label .asm_start) :: Text.items (texts b ⟨0, 0⟩ ts), rfl⟩
  · refine ⟨ks, ?_, hnodup, hbehind⟩
    rw [← List.singleton_append, labels_append, labels_append, hks]
    simp [labels, Stmt.defines?]
  · intro l hl
    have hl' : .call l ∈ Text.items (texts b ⟨0, 0⟩ ts) := by simpa using hl
    exact call_mem_texts hl'

theorem BlockCode.nodup {b : BlockId} {code : List Stmt} (h : BlockCode b code) :
    (labels code).Nodup := by
  obtain ⟨ks, hks, hnodup, hbehind⟩ := h.labels_eq
  rw [hks]
  apply List.Nodup.map b.label_injective
  exact List.nodup_cons.mpr ⟨fun hmem => hbehind _ hmem, hnodup⟩

theorem BlockCode.asm_end_not_mem {b : BlockId} {code : List Stmt} (h : BlockCode b code) :
    b.label .asm_end ∉ labels code := by
  obtain ⟨ks, hks, -, hbehind⟩ := h.labels_eq
  rw [hks, List.mem_map_of_injective b.label_injective, List.mem_cons]
  rintro (hk | hk)
  · cases hk
  · exact hbehind _ hk

end ditto.assembly_generator
